import Equational.Proofs.RuleSet
import Equational.Proofs.SourceLines

/-!
# What the statements of a source text mean

The names of a line in the order they stand there are its uses. A name that a symbol has is used
properly with as many arguments as the symbol takes, any other name without arguments; so the
typing of a line is a property of each use. `ParseTree.Means` says what term a tree stands for,
given the numbers of the variables. The resolver agrees with both: it gives a value exactly if all
uses are proper, it fails where the first one stands that is not, and the value is what the tree
means with the variables numbered by their first use. The laws of the resolver are put together
over the lines of a source in `Statement.readSource_by_lines`.
-/

namespace Equational

open Text

variable {ctx : Context} {text : String}

/-! ### Passes over lists -/

theorem mapM_eq_error {α β ε : Type} {f : α → Except ε β} {l : List α} {e : ε}
    (error : l.mapM f = .error e) :
    ∃ before a after, l = before ++ a :: after ∧ (∀ b ∈ before, ∃ v, f b = .ok v) ∧
      f a = .error e := by
  induction l with
  | nil => cases error
  | cons a l ih =>
    rw [List.mapM_cons] at error
    rcases bind_eq_error.1 error with hfirst | ⟨v, hfirst, error⟩
    · exact ⟨[], a, l, rfl, by simp, hfirst⟩
    · rcases bind_eq_error.1 error with hothers | ⟨vs, _, hnever⟩
      · obtain ⟨before, b, after, rfl, hbefore, hb⟩ := ih hothers
        refine ⟨a :: before, b, after, rfl, ?_, hb⟩
        intro c hc
        rcases List.mem_cons.1 hc with rfl | hc
        · exact ⟨v, hfirst⟩
        · exact hbefore c hc
      · cases hnever

theorem mapM_eq_ok_iff_forall₂ {α β ε : Type} {f : α → Except ε β} {R : α → β → Prop}
    (each : ∀ a b, f a = .ok b ↔ R a b) {l : List α} {l' : List β} :
    l.mapM f = .ok l' ↔ List.Forall₂ R l l' := by
  rw [mapM_eq_ok_iff]
  exact ⟨fun h => h.imp fun a b => (each a b).1, fun h => h.imp fun a b => (each a b).2⟩

theorem exists_of_mem_left {α β : Type} {R : α → β → Prop} {l : List α} {l' : List β}
    (h : List.Forall₂ R l l') {a : α} (mem : a ∈ l) : ∃ b ∈ l', R a b := by
  induction h with
  | nil => cases mem
  | cons first _ ih =>
    rcases List.mem_cons.1 mem with rfl | mem
    · exact ⟨_, List.mem_cons_self, first⟩
    · obtain ⟨b, hb, hab⟩ := ih mem
      exact ⟨b, List.mem_cons_of_mem _ hb, hab⟩

theorem isLeast_of_first {α : Type} {found before after : List (Nat × α)} {number : Nat} {a : α}
    {bad : α → Prop} {P : Nat → Prop} (hP : ∀ n, P n ↔ ∃ b, (n, b) ∈ found ∧ bad b)
    (ascending : found.Pairwise (·.1 < ·.1)) (split : found = before ++ (number, a) :: after)
    (good : ∀ entry ∈ before, ¬bad entry.2) (ha : bad a) : IsLeast {n | P n} number := by
  subst split
  refine ⟨(hP number).2 ⟨a, by simp, ha⟩, ?_⟩
  intro n hn
  obtain ⟨b, hmem, hb⟩ := (hP n).1 hn
  rcases List.mem_append.1 hmem with hmem | hmem
  · exact absurd hb (good _ hmem)
  · rcases List.mem_cons.1 hmem with heq | hmem
    · exact Nat.le_of_eq (congrArg Prod.fst heq).symm
    · have hlater := (List.pairwise_cons.1 (List.pairwise_append.1 ascending).2.1).1
      exact Nat.le_of_lt (hlater _ hmem)

/-! ### Names of a context -/

namespace Context

/-- No symbol has the name, so it is the name of a variable. -/
def IsFree (ctx : Context) (text : String) : Prop :=
  ∀ symbol ∈ ctx.signature.symbols, symbol.name ≠ text

instance : DecidablePred ctx.IsFree := fun _ => List.decidableBAll _ _

theorem find?_cases (ctx : Context) (isName : IsName text) :
    ctx.find? text = none ∧ ctx.IsFree text ∨
      ∃ id arity, ctx.find? text = some id ∧ ctx.signature.get? id = some ⟨text, arity⟩ := by
  rw [find?, Text.trim_eq_self isName.2]
  cases hfind : ctx.signature.find? text with
  | none => exact .inl ⟨rfl, Signature.find?_eq_none_iff.1 hfind⟩
  | some id =>
    obtain ⟨hlt, hname, -⟩ := List.findIdx?_eq_some_iff_getElem.1 hfind
    obtain rfl := beq_iff_eq.1 hname
    exact .inr ⟨id, _, rfl, List.getElem?_eq_getElem hlt⟩

end Context

namespace ParseTree

/-! ### Uses of names -/

/-- A name in a tree, with the number of its arguments and the column it stands at. -/
structure Use where
  text : String
  count : Nat
  column : Nat

mutual
/-- The uses of names in a tree: each one before those in its arguments, from left to right. -/
def uses : ParseTree → List Use
  | .equality lhs rhs => lhs.uses ++ rhs.uses
  | .name text args column => ⟨text, args.length, column⟩ :: usesArgs args
def usesArgs : List ParseTree → List Use
  | [] => []
  | t :: ts => t.uses ++ usesArgs ts
end

/-- A symbol has as many arguments as it takes, and any other name has none. -/
def Use.IsProper (ctx : Context) (u : Use) : Prop :=
  (∀ symbol ∈ ctx.signature.symbols, symbol.name = u.text → symbol.arity = u.count) ∧
    (ctx.IsFree u.text → u.count = 0)

def IsTyped (ctx : Context) (tree : ParseTree) : Prop := ∀ u ∈ tree.uses, u.IsProper ctx

/-- The first of the uses that is not proper. -/
def IsFirstMisuse (ctx : Context) (us : List Use) (u : Use) : Prop :=
  ∃ before after, us = before ++ u :: after ∧ (∀ v ∈ before, v.IsProper ctx) ∧ ¬u.IsProper ctx

theorem IsFirstMisuse.not_isTyped {tree : ParseTree} {u : Use}
    (first : IsFirstMisuse ctx tree.uses u) : ¬tree.IsTyped ctx := by
  obtain ⟨before, after, huses, -, misused⟩ := first
  intro typed
  exact misused (typed u (by simp [huses]))

/-- The names of variables among the uses, in the order they stand there. -/
def freeNames (ctx : Context) (us : List Use) : List String :=
  (us.map Use.text).filter ctx.IsFree

theorem freeNames_append (us vs : List Use) :
    freeNames ctx (us ++ vs) = freeNames ctx us ++ freeNames ctx vs := by
  rw [freeNames, List.map_append, List.filter_append]
  rfl

theorem isProper_iff_of_isFree (free : ctx.IsFree text) {count column : Nat} :
    (Use.mk text count column).IsProper ctx ↔ count = 0 := by
  refine ⟨fun proper => proper.2 free, fun none => ⟨?_, fun _ => none⟩⟩
  intro symbol hmem hname
  exact absurd hname (free symbol hmem)

theorem not_isFree_of_get? {id arity : Nat} (found : ctx.signature.get? id = some ⟨text, arity⟩) :
    ¬ctx.IsFree text :=
  fun free => free _ (List.mem_of_getElem? found) rfl

/-- A symbol is used properly with its arity only, since no other symbol has its name. -/
theorem isProper_iff_of_get? (built : ctx.Built) {id arity : Nat}
    (found : ctx.signature.get? id = some ⟨text, arity⟩) {count column : Nat} :
    (Use.mk text count column).IsProper ctx ↔ arity = count := by
  constructor
  · intro proper
    exact proper.1 _ (List.mem_of_getElem? found) rfl
  · intro harity
    refine ⟨?_, fun free => absurd free (not_isFree_of_get? found)⟩
    intro symbol hmem hname
    obtain ⟨other, hother⟩ := List.mem_iff_getElem?.1 hmem
    have hfind := built.draft.1.find?_name hother
    rw [hname, built.draft.1.find?_name found] at hfind
    obtain rfl := Option.some.inj hfind
    obtain rfl := Option.some.inj (hother.symm.trans found)
    exact harity

/-! ### Trees that the grammar derives -/

/-- No equality occurs in the tree, and its names are words of the grammar. -/
inductive OfNames : ParseTree → Prop
  | name {text : String} {args : List ParseTree} {column : Nat} (isName : IsName text)
      (each : ∀ t ∈ args, OfNames t) : OfNames (.name text args column)

theorem SpellsArgs.of_mem {spells : Nat → List Char → ParseTree → Prop} {column : Nat}
    {chars : List Char} {trees : List ParseTree} (spelt : SpellsArgs spells column chars trees)
    {tree : ParseTree} (mem : tree ∈ trees) : ∃ column chars, spells column chars tree := by
  induction spelt with
  | last _ arg _ =>
    obtain rfl := List.mem_singleton.1 mem
    exact ⟨_, _, arg⟩
  | more _ arg _ _ ih =>
    rcases List.mem_cons.1 mem with rfl | mem
    · exact ⟨_, _, arg⟩
    · exact ih mem

theorem Spells.ofNames {tree : ParseTree} {column : Nat} {chars : List Char}
    (spelt : Spells column chars tree) : tree.OfNames := by
  induction tree generalizing column chars with
  | equality lhs rhs _ _ => cases spelt
  | name text args column ih =>
    cases spelt with
    | name isName => exact .name isName (by simp)
    | call isName _ each =>
      refine .name isName fun t ht => ?_
      obtain ⟨column, chars, spelt⟩ := each.of_mem ht
      exact ih t ht spelt

/-! ### One step of the resolver -/

/-- What the resolver does at a name, given the variables met before. -/
inductive ResolvesName (ctx : Context) (text : String) (args : List ParseTree) (column : Nat)
    (known : List String) : Except ReadError (Formula × List String) → Prop
  | notAFunction (free : ctx.IsFree text) (applied : args ≠ []) :
      ResolvesName ctx text args column known (.error ⟨0, column, .notAFunction text⟩)
  | free (free : ctx.IsFree text) (bare : args = []) :
      ResolvesName ctx text args column known
        (.ok (.free (known.idxOf text), if text ∈ known then known else known ++ [text]))
  | argumentCount {id arity : Nat} (found : ctx.signature.get? id = some ⟨text, arity⟩)
      (differs : arity ≠ args.length) :
      ResolvesName ctx text args column known
        (.error ⟨0, column, .argumentCount text arity args.length⟩)
  | const {id : Nat} (found : ctx.signature.get? id = some ⟨text, 0⟩) (bare : args = []) :
      ResolvesName ctx text args column known (.ok (.const id, known))
  | func {id : Nat} (found : ctx.signature.get? id = some ⟨text, args.length⟩)
      (applied : args ≠ []) :
      ResolvesName ctx text args column known
        (do let (fs, known) ← resolveArgs ctx args known
            pure (.func id fs, known))

theorem resolvesName (ctx : Context) (isName : IsName text) (args : List ParseTree) (column : Nat)
    (known : List String) :
    ResolvesName ctx text args column known
      ((ParseTree.name text args column).resolveTerm ctx known) := by
  rw [resolveTerm]
  rcases ctx.find?_cases isName with ⟨hfind, free⟩ | ⟨id, arity, hfind, found⟩
  · rw [hfind]
    cases args with
    | cons first others => exact .notAFunction free (by simp)
    | nil =>
      have hresult : ResolvesName ctx text [] column known _ := .free free rfl
      cases hknown : known.idxOf? text with
      | some place =>
        have hmem : text ∈ known := by
          rw [← List.isSome_idxOf?, hknown]
          rfl
        rw [if_pos hmem, List.idxOf_eq_getD_idxOf?, hknown] at hresult
        exact hresult
      | none =>
        have hmem : text ∉ known := List.idxOf?_eq_none_iff.1 hknown
        rw [if_neg hmem, List.idxOf_eq_length hmem] at hresult
        exact hresult
  · have harity : (ctx.signature.arity? id).getD 0 = arity := by
      rw [Signature.arity?, found]
      rfl
    rw [hfind]
    dsimp only
    rw [harity]
    by_cases hcount : arity = args.length
    · subst hcount
      rw [if_neg (by simp)]
      by_cases hbare : args = []
      · subst hbare
        exact .const found rfl
      · rw [if_neg (by simpa using hbare)]
        have hresult : ResolvesName ctx text args column known _ := .func found hbare
        cases hargs : resolveArgs ctx args known with
        | ok result => rw [hargs] at hresult; exact hresult
        | error e => rw [hargs] at hresult; exact hresult
    · rw [if_pos hcount]
      exact .argumentCount found hcount

theorem resolveArgs_cons (t : ParseTree) (ts : List ParseTree) (known : List String) :
    resolveArgs ctx (t :: ts) known = (do
      let (first, known) ← t.resolveTerm ctx known
      let (others, known) ← resolveArgs ctx ts known
      pure (first :: others, known)) := by
  rw [resolveArgs]
  cases t.resolveTerm ctx known with
  | error e => rfl
  | ok first =>
    dsimp only [bind, Except.bind]
    cases resolveArgs ctx ts first.2 with
    | error e => rfl
    | ok others => rfl

/-! ### Where the resolver fails -/

/-- A computation that looks at the uses in their order: it gives a value if all are proper, and
otherwise fails where the first one stands that is not. -/
def Reports {α : Type} (ctx : Context) (us : List Use) : Except ReadError α → Prop
  | .ok _ => ∀ u ∈ us, u.IsProper ctx
  | .error e => ∃ u, IsFirstMisuse ctx us u ∧ e.column = u.column

namespace Reports

variable {α β : Type} {us vs : List Use} {u : Use}

theorem pure (a : α) : Reports ctx [] (Pure.pure a : Except ReadError α) := by
  intro u hu
  cases hu

theorem here {e : ReadError} (misused : ¬u.IsProper ctx) (column : e.column = u.column) :
    Reports ctx (u :: us) (.error e : Except ReadError α) :=
  ⟨u, ⟨[], us, rfl, by simp, misused⟩, column⟩

theorem bind {x : Except ReadError α} {f : α → Except ReadError β} (first : Reports ctx us x)
    (next : ∀ a, Reports ctx vs (f a)) : Reports ctx (us ++ vs) (x >>= f) := by
  cases x with
  | error e =>
    obtain ⟨u, ⟨before, after, rfl, proper, misused⟩, column⟩ := first
    exact ⟨u, ⟨before, after ++ vs, by simp, proper, misused⟩, column⟩
  | ok a =>
    have hnext := next a
    show Reports ctx (us ++ vs) (f a)
    cases hresult : f a with
    | ok b =>
      rw [hresult] at hnext
      intro u hu
      rcases List.mem_append.1 hu with hu | hu
      · exact first u hu
      · exact hnext u hu
    | error e =>
      rw [hresult] at hnext
      obtain ⟨u, ⟨before, after, rfl, proper, misused⟩, column⟩ := hnext
      refine ⟨u, ⟨us ++ before, after, by simp, ?_, misused⟩, column⟩
      intro v hv
      rcases List.mem_append.1 hv with hv | hv
      · exact first v hv
      · exact proper v hv

theorem cons {x : Except ReadError α} (proper : u.IsProper ctx) (rest : Reports ctx us x) :
    Reports ctx (u :: us) x := by
  have first : Reports ctx [u] (.ok () : Except ReadError Unit) := by
    intro v hv
    obtain rfl := List.mem_singleton.1 hv
    exact proper
  exact first.bind fun _ => rest

end Reports

theorem reports_resolveArgs {trees : List ParseTree}
    (each : ∀ t ∈ trees, ∀ known, Reports ctx t.uses (t.resolveTerm ctx known))
    (known : List String) : Reports ctx (usesArgs trees) (resolveArgs ctx trees known) := by
  induction trees generalizing known with
  | nil => exact .pure _
  | cons t ts ih =>
    rw [resolveArgs_cons, usesArgs]
    refine (each t List.mem_cons_self known).bind fun result => ?_
    have hothers := ih (fun t ht => each t (List.mem_cons_of_mem _ ht)) result.2
    simpa using hothers.bind fun others => Reports.pure (result.1 :: others.1, others.2)

theorem reports_resolveTerm (built : ctx.Built) {tree : ParseTree} (ofNames : tree.OfNames)
    (known : List String) : Reports ctx tree.uses (tree.resolveTerm ctx known) := by
  induction tree generalizing known with
  | equality lhs rhs _ _ => cases ofNames
  | name text args column ih =>
    cases ofNames with
    | name isName each =>
      have step := resolvesName ctx isName args column known
      generalize (ParseTree.name text args column).resolveTerm ctx known = result at step ⊢
      rw [uses]
      cases step with
      | notAFunction free applied =>
        refine .here ?_ rfl
        rw [isProper_iff_of_isFree free]
        simpa using applied
      | argumentCount found differs =>
        refine .here ?_ rfl
        rw [isProper_iff_of_get? built found]
        exact differs
      | free free bare =>
        subst bare
        exact .cons ((isProper_iff_of_isFree free).2 rfl) (.pure _)
      | const found bare =>
        subst bare
        exact .cons ((isProper_iff_of_get? built found).2 rfl) (.pure _)
      | func found applied =>
        refine .cons ((isProper_iff_of_get? built found).2 rfl) ?_
        have hargs := reports_resolveArgs (fun t ht known => ih t ht (each t ht) known) known
        simpa using hargs.bind fun result => Reports.pure (Formula.func _ result.1, result.2)

/-! ### What the resolver gives -/

/-- The tree stands for the term if every variable has the number that is given for its name. -/
inductive Means (ctx : Context) (number : String → Nat) : ParseTree → Term → Prop
  | var {text : String} {column : Nat} (free : ctx.IsFree text) :
      Means ctx number (.name text [] column) (.var (number text))
  | const {text : String} {column id : Nat} (found : ctx.signature.get? id = some ⟨text, 0⟩) :
      Means ctx number (.name text [] column) (.const id)
  | app {text : String} {args : List ParseTree} {column id : Nat} {ts : List Term}
      (found : ctx.signature.get? id = some ⟨text, args.length⟩) (applied : args ≠ [])
      (each : List.Forall₂ (Means ctx number) args ts) :
      Means ctx number (.name text args column) (.app id ts)

/-- The variables are numbered by their first use in the line, left side first. -/
inductive Denotes (ctx : Context) : ParseTree → Equation → Prop
  | equality {lhs rhs : ParseTree} {e : Equation} {number : String → Nat}
      (numbered : ∀ text,
        number text = (freeNames ctx (ParseTree.equality lhs rhs).uses).eraseDups.idxOf text)
      (left : Means ctx number lhs e.lhs) (right : Means ctx number rhs e.rhs) :
      Denotes ctx (.equality lhs rhs) e

/-- A name has its number from when it is met, whatever names are met after it. -/
theorem idxOf_of_met {seen all : List String} (starts : (seen ++ [text]).eraseDups <+: all) :
    all.idxOf text = seen.eraseDups.idxOf text := by
  obtain ⟨more, rfl⟩ := starts
  rw [List.idxOf_append_of_mem (by simp), eraseDups_concat]
  split
  next => rfl
  next hmem =>
    rw [List.idxOf_append, if_neg hmem, List.idxOf_cons_self, List.idxOf_eq_length hmem,
      Nat.zero_add]

/-- After some variables were met, the variables of a tree are numbered next. -/
def Numbers (ctx : Context) (tree : ParseTree) : Prop :=
  ∀ (seen : List String) ⦃known : List String⦄ ⦃f : Formula⦄,
    tree.resolveTerm ctx seen.eraseDups = .ok (f, known) →
      known = (seen ++ freeNames ctx tree.uses).eraseDups ∧
      ∀ all, known <+: all → ∃ t, f.term = .ok t ∧ Means ctx (fun text => all.idxOf text) tree t

theorem numbers_args {trees : List ParseTree} (each : ∀ t ∈ trees, Numbers ctx t)
    {seen known : List String} {fs : List Formula}
    (ok : resolveArgs ctx trees seen.eraseDups = .ok (fs, known)) :
    known = (seen ++ freeNames ctx (usesArgs trees)).eraseDups ∧
      ∀ all, known <+: all → ∃ ts, List.Forall₂ (fun f t => f.term = .ok t) fs ts ∧
        List.Forall₂ (Means ctx fun text => all.idxOf text) trees ts := by
  induction trees generalizing seen fs with
  | nil =>
    obtain ⟨rfl, rfl⟩ := Prod.mk.inj (Except.ok.inj ok)
    exact ⟨by simp [usesArgs, freeNames], fun all _ => ⟨[], .nil, .nil⟩⟩
  | cons t ts ih =>
    rw [resolveArgs_cons] at ok
    obtain ⟨⟨first, known₁⟩, hfirst, ok⟩ := bind_eq_ok.1 ok
    obtain ⟨⟨others, known₂⟩, hothers, ok⟩ := bind_eq_ok.1 ok
    obtain ⟨rfl, rfl⟩ := Prod.mk.inj (Except.ok.inj ok)
    obtain ⟨rfl, hterm⟩ := each t List.mem_cons_self seen hfirst
    obtain ⟨rfl, hterms⟩ := ih (fun t ht => each t (List.mem_cons_of_mem _ ht)) hothers
    refine ⟨by rw [usesArgs, freeNames_append, List.append_assoc], fun all starts => ?_⟩
    obtain ⟨u, hu, means⟩ := hterm all ((eraseDups_prefix_append _ _).trans starts)
    obtain ⟨us, hus, meansAll⟩ := hterms all starts
    exact ⟨u :: us, .cons hu hus, .cons means meansAll⟩

theorem numbers {tree : ParseTree} (ofNames : tree.OfNames) : Numbers ctx tree := by
  induction tree with
  | equality lhs rhs _ _ => cases ofNames
  | name text args column ih =>
    cases ofNames with
    | name isName each =>
      intro seen known f ok
      have step := resolvesName ctx isName args column seen.eraseDups
      rw [ok] at step
      generalize hresult : (Except.ok (f, known) : Except ReadError _) = result at step
      cases step with
      | notAFunction => cases hresult
      | argumentCount => cases hresult
      | free free bare =>
        subst bare
        obtain ⟨rfl, rfl⟩ := Prod.mk.inj (Except.ok.inj hresult)
        have hnames : freeNames ctx (ParseTree.name text [] column).uses = [text] := by
          simp [freeNames, uses, usesArgs, free]
        rw [hnames, ← eraseDups_concat]
        refine ⟨rfl, fun all starts => ⟨_, rfl, ?_⟩⟩
        rw [← idxOf_of_met starts]
        exact @Means.var ctx (fun text => all.idxOf text) text column free
      | const found bare =>
        subst bare
        obtain ⟨rfl, rfl⟩ := Prod.mk.inj (Except.ok.inj hresult)
        have hnames : freeNames ctx (ParseTree.name text [] column).uses = [] := by
          simp [freeNames, uses, usesArgs, not_isFree_of_get? found]
        rw [hnames, List.append_nil]
        exact ⟨rfl, fun all _ => ⟨_, rfl, .const found⟩⟩
      | func found applied =>
        obtain ⟨⟨fs, known'⟩, hargs, ok⟩ := bind_eq_ok.1 hresult.symm
        obtain ⟨rfl, rfl⟩ := Prod.mk.inj (Except.ok.inj ok)
        obtain ⟨hknown, hterms⟩ := numbers_args (fun t ht => ih t ht (each t ht)) hargs
        have hnames : freeNames ctx (ParseTree.name text args column).uses =
            freeNames ctx (usesArgs args) := by
          simp [freeNames, uses, not_isFree_of_get? found]
        refine ⟨by rw [hnames, hknown], fun all starts => ?_⟩
        obtain ⟨ts, hts, means⟩ := hterms all starts
        have hne : ts ≠ [] := by
          rintro rfl
          exact applied (List.forall₂_nil_right_iff.1 means)
        exact ⟨_, Formula.term_func_eq_ok_iff.2 ⟨ts, hts, hne, rfl⟩, .app found applied means⟩

/-! ### Lines -/

theorem reports_resolve (built : ctx.Built) {code : List Char} {tree : ParseTree}
    (line : IsLine code tree) : Reports ctx tree.uses (tree.resolve ctx) := by
  cases line with
  | equality _ leftSide _ _ rightSide _ =>
    rw [uses, resolve_equality]
    refine (reports_resolveTerm built leftSide.ofNames []).bind fun lhs => ?_
    have hright := reports_resolveTerm built rightSide.ofNames lhs.2
    simpa using hright.bind fun rhs => Reports.pure (Formula.equality lhs.1 rhs.1)

theorem isTyped_of_resolve (built : ctx.Built) {code : List Char} {tree : ParseTree}
    (line : IsLine code tree) {f : Formula} (ok : tree.resolve ctx = .ok f) :
    tree.IsTyped ctx := by
  have hreports := reports_resolve built line
  rw [ok] at hreports
  exact hreports

theorem denotes_of_resolve {code : List Char} {tree : ParseTree} (line : IsLine code tree)
    {f : Formula} (ok : tree.resolve ctx = .ok f) :
    ∃ e, f.equation = .ok e ∧ tree.Denotes ctx e := by
  cases line with
  | @equality _ _ _ _ _ _ lhs rhs _ leftSide _ _ rightSide _ =>
    rw [resolve_equality] at ok
    obtain ⟨⟨l, known⟩, hl, ok⟩ := bind_eq_ok.1 ok
    obtain ⟨⟨r, known'⟩, hr, ok⟩ := bind_eq_ok.1 ok
    obtain rfl := Except.ok.inj ok
    obtain ⟨rfl, hleft⟩ := numbers leftSide.ofNames [] hl
    obtain ⟨rfl, hright⟩ := numbers rightSide.ofNames (freeNames ctx lhs.uses) hr
    obtain ⟨tl, htl, meansLeft⟩ := hleft _ (eraseDups_prefix_append _ (freeNames ctx rhs.uses))
    obtain ⟨tr, htr, meansRight⟩ := hright _ List.prefix_rfl
    refine ⟨⟨tl, tr⟩, bind_eq_ok.2 ⟨tl, htl, bind_eq_ok.2 ⟨tr, htr, rfl⟩⟩, ?_⟩
    refine .equality (fun text => ?_) meansLeft meansRight
    rw [uses, freeNames_append]
    rfl

/-! ### How many variables there are -/

theorem mem_usesArgs {u : Use} {trees : List ParseTree} :
    u ∈ usesArgs trees ↔ ∃ t ∈ trees, u ∈ t.uses := by
  induction trees with
  | nil => simp [usesArgs]
  | cons t ts ih => simp [usesArgs, ih]

theorem mem_freeNames {us : List Use} :
    text ∈ freeNames ctx us ↔ (∃ u ∈ us, u.text = text) ∧ ctx.IsFree text := by
  simp [freeNames, List.mem_filter]

theorem Means.exists_of_mem_vars {number : String → Nat} {tree : ParseTree} {t : Term}
    (means : Means ctx number tree t) {id : Nat} (hid : id ∈ t.vars) :
    ∃ text ∈ freeNames ctx tree.uses, number text = id := by
  induction t generalizing tree with
  | var i =>
    cases means with
    | @var text column free =>
      refine ⟨text, mem_freeNames.2 ⟨⟨_, List.mem_cons_self, rfl⟩, free⟩, ?_⟩
      exact (Term.mem_vars_var.1 hid).symm
  | const symbol => simp at hid
  | app symbol args ih =>
    cases means with
    | app found applied each =>
      obtain ⟨arg, harg, hid⟩ := Term.mem_vars_app.1 hid
      obtain ⟨tree', htree', means'⟩ := exists_of_mem_left each.flip harg
      obtain ⟨text, htext, hnumber⟩ := ih arg harg means' hid
      obtain ⟨⟨u, hu, huse⟩, free⟩ := mem_freeNames.1 htext
      refine ⟨text, mem_freeNames.2 ⟨⟨u, ?_, huse⟩, free⟩, hnumber⟩
      exact List.mem_cons_of_mem _ (mem_usesArgs.2 ⟨tree', htree', hu⟩)

theorem Denotes.lt_length_uses {tree : ParseTree} {e : Equation} (denotes : tree.Denotes ctx e)
    {id : Nat} (hid : id ∈ e.vars) : id < tree.uses.length := by
  cases denotes with
  | @equality lhs rhs _ number numbered left right =>
    obtain ⟨text, htext, rfl⟩ :
        ∃ text ∈ freeNames ctx (ParseTree.equality lhs rhs).uses, number text = id := by
      rw [uses, freeNames_append]
      rcases Equation.mem_vars.1 hid with hid | hid
      · obtain ⟨text, htext, hnumber⟩ := left.exists_of_mem_vars hid
        exact ⟨text, List.mem_append_left _ htext, hnumber⟩
      · obtain ⟨text, htext, hnumber⟩ := right.exists_of_mem_vars hid
        exact ⟨text, List.mem_append_right _ htext, hnumber⟩
    have hsub : (freeNames ctx (ParseTree.equality lhs rhs).uses).eraseDups ⊆
        freeNames ctx (ParseTree.equality lhs rhs).uses := fun _ => List.mem_eraseDups.1
    have hnames := ((nodup_eraseDups _).subperm hsub).length_le
    have huses : (freeNames ctx (ParseTree.equality lhs rhs).uses).length ≤
        (ParseTree.equality lhs rhs).uses.length :=
      (List.length_filter_le _ _).trans_eq (List.length_map _)
    rw [numbered]
    have hplace := List.idxOf_lt_length_of_mem (List.mem_eraseDups.2 htext)
    omega

theorem SpellsArgs.length_usesArgs_le {spells : Nat → List Char → ParseTree → Prop} {column : Nat}
    {chars : List Char} {trees : List ParseTree} (spelt : SpellsArgs spells column chars trees)
    (each : ∀ t ∈ trees, ∀ column chars, spells column chars t → t.uses.length ≤ chars.length) :
    (usesArgs trees).length ≤ chars.length := by
  induction spelt with
  | last _ arg _ =>
    have harg := each _ List.mem_cons_self _ _ arg
    simp only [usesArgs, List.length_append, List.length_nil]
    omega
  | more _ arg _ _ ih =>
    have harg := each _ List.mem_cons_self _ _ arg
    have hothers := ih fun t ht => each t (List.mem_cons_of_mem _ ht)
    simp only [usesArgs, List.length_append, List.length_cons]
    omega

theorem Spells.length_uses_le {tree : ParseTree} {column : Nat} {chars : List Char}
    (spelt : Spells column chars tree) : tree.uses.length ≤ chars.length := by
  induction tree generalizing column chars with
  | equality lhs rhs _ _ => cases spelt
  | name text args column ih =>
    cases spelt with
    | name isName =>
      have hpos := List.length_pos_iff.2 isName.1
      simp only [uses, usesArgs, List.length_cons, List.length_nil]
      omega
    | call isName _ each =>
      have hargs := each.length_usesArgs_le fun t ht column chars => ih t ht
      simp only [uses, List.length_append, List.length_cons]
      omega

theorem IsLine.length_uses_le {code : List Char} {tree : ParseTree} (line : IsLine code tree) :
    tree.uses.length ≤ code.length := by
  cases line with
  | equality _ leftSide _ _ rightSide _ =>
    have hleft := leftSide.length_uses_le
    have hright := rightSide.length_uses_le
    simp only [uses, List.length_append, List.length_cons]
    omega

theorem length_le_of_holdsAt {source code : List Char} {number : Nat}
    (holds : HoldsAt source number code) : code.length ≤ source.length := by
  obtain ⟨found, line, splits, hline, -, hcode, -⟩ := holds
  have hle : ∀ line ∈ found, line.length ≤ source.length := by
    clear hline
    induction splits with
    | nil => simp
    | last _ _ => simp
    | feed _ _ _ ih =>
      simp only [List.forall_mem_cons, List.length_append, List.length_cons]
      refine ⟨by omega, fun line hline => ?_⟩
      have hline := ih line hline
      omega
    | returnFeed _ _ ih =>
      simp only [List.forall_mem_cons, List.length_append, List.length_cons]
      refine ⟨by omega, fun line hline => ?_⟩
      have hline := ih line hline
      omega
  refine Nat.le_trans ?_ (hle line (List.mem_of_getElem? hline))
  rcases hcode with rfl | ⟨comment, rfl⟩
  · exact Nat.le_refl _
  · rw [List.length_append]
    omega

/-! ### Sources -/

theorem readNumbered_eq_ok_iff {source : List Char} {trees : List (Nat × ParseTree)} :
    readNumbered source = .ok trees ↔
      List.Forall₂ (fun line entry => entry.1 = line.1 ∧ IsLine line.2 entry.2)
        (statementLines source) trees := by
  apply mapM_eq_ok_iff_forall₂
  rintro ⟨number, line⟩ entry
  rw [← readLine_eq_ok_iff]
  dsimp only
  cases readLine line with
  | error e => simp [Except.mapError]
  | ok tree => simp [Except.mapError, Prod.ext_iff, eq_comm]

theorem IsLine.unique {code : List Char} {tree tree' : ParseTree} (line : IsLine code tree)
    (line' : IsLine code tree') : tree = tree' :=
  Except.ok.inj ((readLine_eq_ok_iff.2 line).symm.trans (readLine_eq_ok_iff.2 line'))

/-- The trees of a source have the numbers of the lines that hold them. -/
theorem mem_readNumbered_iff {source : List Char} {trees : List (Nat × ParseTree)}
    (ok : readNumbered source = .ok trees) {number : Nat} {tree : ParseTree} :
    (number, tree) ∈ trees ↔ ∃ code, HoldsAt source number code ∧ IsLine code tree := by
  have each := readNumbered_eq_ok_iff.1 ok
  simp only [← mem_statementLines_iff]
  constructor
  · intro mem
    obtain ⟨⟨_, code⟩, hcode, rfl, line⟩ := exists_of_mem_left each.flip mem
    exact ⟨code, hcode, line⟩
  · rintro ⟨code, hcode, line⟩
    obtain ⟨⟨_, tree'⟩, hmem, rfl, line'⟩ := exists_of_mem_left each hcode
    obtain rfl := line'.unique line
    exact hmem

theorem ascending_of_readNumbered {source : List Char} {trees : List (Nat × ParseTree)}
    (ok : readNumbered source = .ok trees) : trees.Pairwise (·.1 < ·.1) := by
  have hnumbers : trees.map Prod.fst = (statementLines source).map Prod.fst := by
    rw [← List.forall₂_eq_eq_eq, List.forall₂_map_left_iff, List.forall₂_map_right_iff]
    exact (readNumbered_eq_ok_iff.1 ok).flip.imp fun _ _ h => h.1
  have hascending := List.pairwise_map.2 (lists_statementLines source).ascending
  rw [← hnumbers] at hascending
  exact List.pairwise_map.1 hascending

/-- The line holds text that is no statement of the grammar. -/
def IsMisspeltAt (source : List Char) (number : Nat) : Prop :=
  ∃ code, HoldsAt source number code ∧ ∀ tree, ¬IsLine code tree

/-- The line holds a statement of the grammar in which some name is not used properly. -/
def IsMistypedAt (ctx : Context) (source : List Char) (number : Nat) : Prop :=
  ∃ code tree, HoldsAt source number code ∧ IsLine code tree ∧ ¬tree.IsTyped ctx

/-- If the lines of a source cannot be read, the first one that is no statement is reported. -/
theorem isLeast_of_readNumbered_eq_error {source : List Char} {e : ReadError}
    (error : readNumbered source = .error e) : IsLeast {n | IsMisspeltAt source n} e.line := by
  obtain ⟨before, ⟨number, code⟩, after, hsplit, hbefore, herror⟩ := mapM_eq_error error
  have hfirst : ∀ entry ∈ before, ¬∀ tree, ¬IsLine entry.2 tree := by
    intro entry hmem none
    obtain ⟨v, hv⟩ := hbefore entry hmem
    cases hread : readLine entry.2 with
    | ok tree => exact none tree (readLine_eq_ok_iff.1 hread)
    | error e => simp [hread, Except.mapError] at hv
  have hcode : e.line = number ∧ ∀ tree, ¬IsLine code tree := by
    cases hread : readLine code with
    | ok tree => simp [hread, Except.mapError] at herror
    | error e' =>
      rw [hread] at herror
      have hreport : e'.onLine number = e := Except.error.inj herror
      refine ⟨hreport ▸ rfl, fun tree line => ?_⟩
      rw [readLine_eq_ok_iff.2 line] at hread
      cases hread
  have hlines : ∀ n, IsMisspeltAt source n ↔
      ∃ code, (n, code) ∈ statementLines source ∧ ∀ tree, ¬IsLine code tree := by
    simp only [mem_statementLines_iff]
    exact fun _ => Iff.rfl
  rw [hcode.1]
  exact isLeast_of_first hlines (lists_statementLines source).ascending hsplit hfirst hcode.2

end ParseTree

namespace Formula

open ParseTree

theorem isMistypedAt_iff {source : List Char} {trees : List (Nat × ParseTree)}
    (read : ParseTree.readNumbered source = .ok trees) {n : Nat} :
    IsMistypedAt ctx source n ↔ ∃ tree, (n, tree) ∈ trees ∧ ¬tree.IsTyped ctx := by
  simp only [IsMistypedAt, mem_readNumbered_iff read]
  constructor
  · rintro ⟨code, tree, holds, line, untyped⟩
    exact ⟨tree, ⟨code, holds, line⟩, untyped⟩
  · rintro ⟨tree, ⟨code, holds, line⟩, untyped⟩
    exact ⟨code, tree, holds, line, untyped⟩

/-- If the lines of a source are statements and cannot be resolved, the first one that is not
typed is reported, at its first name that is not used properly. -/
theorem isLeast_of_readSource_eq_error (built : ctx.Built) {source : List Char}
    {trees : List (Nat × ParseTree)} (read : ParseTree.readNumbered source = .ok trees)
    {e : ReadError} (error : readSource ctx source = .error e) :
    IsLeast {n | IsMistypedAt ctx source n} e.line ∧
      ∃ code tree u, HoldsAt source e.line code ∧ IsLine code tree ∧
        IsFirstMisuse ctx tree.uses u ∧ e.column = u.column := by
  rw [readSource_eq, read] at error
  obtain ⟨before, ⟨number, tree⟩, after, hsplit, hbefore, herror⟩ := mapM_eq_error error
  have hfirst : ∀ entry ∈ before, ¬¬entry.2.IsTyped ctx := by
    intro entry hmem untyped
    obtain ⟨v, hv⟩ := hbefore entry hmem
    have hmem' : entry ∈ trees := hsplit ▸ List.mem_append_left _ hmem
    obtain ⟨code, -, line⟩ := (mem_readNumbered_iff read).1 hmem'
    cases hresolve : entry.2.resolve ctx with
    | ok f => exact untyped (isTyped_of_resolve built line hresolve)
    | error e => simp [hresolve, Except.mapError] at hv
  have hmem : (number, tree) ∈ trees := by simp [hsplit]
  obtain ⟨code, holds, line⟩ := (mem_readNumbered_iff read).1 hmem
  have hreports := reports_resolve built line
  cases hresolve : tree.resolve ctx with
  | ok f => simp [hresolve, Except.mapError] at herror
  | error e' =>
    rw [hresolve] at hreports
    simp only [hresolve, Except.mapError, Except.error.injEq] at herror
    subst herror
    obtain ⟨u, first, column⟩ := hreports
    refine ⟨?_, code, tree, u, holds, line, first, column⟩
    exact isLeast_of_first (fun n => isMistypedAt_iff read) (ascending_of_readNumbered read) hsplit
      hfirst first.not_isTyped

theorem readSource_eq_ok_iff {source : List Char} {fs : List Formula} :
    readSource ctx source = .ok fs ↔
      ∃ trees, ParseTree.readNumbered source = .ok trees ∧
        List.Forall₂ (fun entry f => entry.2.resolve ctx = .ok f) trees fs := by
  rw [readSource_eq, bind_eq_ok]
  refine exists_congr fun trees => and_congr_right fun _ => ?_
  apply mapM_eq_ok_iff_forall₂
  rintro ⟨number, tree⟩ f
  dsimp only
  cases tree.resolve ctx with
  | error e => simp [Except.mapError]
  | ok formula => simp [Except.mapError]

end Formula

namespace Statement

open ParseTree

variable {source : String} {ss : List Statement}

/-- A source that is read has typed statements only. -/
theorem exists_tree_of_holdsAt (built : ctx.Built) (ok : readSource ctx source = .ok ss)
    {number : Nat} {code : List Char} (holds : HoldsAt source.toList number code) :
    ∃ tree, IsLine code tree ∧ tree.IsTyped ctx := by
  obtain ⟨fs, hformulas, -⟩ := bind_eq_ok.1 ok
  obtain ⟨trees, read, resolved⟩ := Formula.readSource_eq_ok_iff.1 hformulas
  obtain ⟨entry, hentry, -, line⟩ :=
    exists_of_mem_left (readNumbered_eq_ok_iff.1 read) (mem_statementLines_iff.2 holds)
  obtain ⟨f, -, hresolve⟩ := exists_of_mem_left resolved hentry
  exact ⟨entry.2, line, isTyped_of_resolve built line hresolve⟩

theorem denotes_of_readSource (ok : readSource ctx source = .ok ss) :
    List.Forall₂ (fun line s => ∃ tree e, IsLine line.2 tree ∧ tree.Denotes ctx e ∧
      s = ofEquation ctx e) (statementLines source.toList) ss := by
  obtain ⟨fs, hformulas, hstatements⟩ := bind_eq_ok.1 ok
  obtain ⟨trees, read, resolved⟩ := Formula.readSource_eq_ok_iff.1 hformulas
  have lines := readNumbered_eq_ok_iff.1 read
  rw [← Except.ok.inj hstatements]
  clear ok hformulas hstatements read
  generalize statementLines source.toList = held at lines ⊢
  induction lines generalizing fs with
  | nil =>
    obtain rfl := List.forall₂_nil_left_iff.1 resolved
    exact .nil
  | cons first _ ih =>
    obtain ⟨f, fs, hresolve, others, rfl⟩ := List.forall₂_cons_left_iff.1 resolved
    obtain ⟨e, hequation, denotes⟩ := denotes_of_resolve first.2 hresolve
    have hstatement : (ofFormula ctx f).toOption = some (ofEquation ctx e) :=
      toOption_eq_some.2 (bind_eq_ok.2 ⟨e, hequation, rfl⟩)
    rw [List.filterMap_cons, hstatement]
    exact .cons ⟨_, e, first.2, denotes, rfl⟩ (ih fs others)

theorem denotes_of_mem_readSource (ok : readSource ctx source = .ok ss) {s : Statement}
    (hs : s ∈ ss) : s.Denotes s.equation := by
  obtain ⟨line, -, tree, e, -, -, rfl⟩ := exists_of_mem_left (denotes_of_readSource ok).flip hs
  exact (isAcyclic_ofEquation ctx e).denotes

/-- The variables of a statement are numbered from zero on, and a text has more characters than
any of its statements has variables. -/
theorem lt_length_of_readSource (ok : readSource ctx source = .ok ss) {s : Statement} (hs : s ∈ ss)
    {id : Nat} (hid : id ∈ s.equation.vars) : id < source.length := by
  obtain ⟨⟨number, code⟩, hcode, tree, e, line, denotes, rfl⟩ :=
    exists_of_mem_left (denotes_of_readSource ok).flip hs
  rw [equation_ofEquation] at hid
  have huse := denotes.lt_length_uses hid
  have hline := line.length_uses_le
  have hsource : code.length ≤ source.length :=
    length_le_of_holdsAt (mem_statementLines_iff.1 hcode)
  dsimp only at hline
  omega

/-- A text that is not too long has only variables that are near to each other. -/
theorem isNarrow_of_readSource (ok : readSource ctx source = .ok ss)
    (short : 2 * source.length ≤ DenseMap.limit) {s : Statement} (hs : s ∈ ss) :
    DenseMap.IsNarrow s.equation.vars := by
  intro i _ j hj
  have hlt := lt_length_of_readSource ok hs hj
  omega

theorem of_readSource_eq_error (built : ctx.Built) {error : ReadError}
    (failed : readSource ctx source = .error error) :
    IsLeast {n | IsMisspeltAt source.toList n} error.line ∨
      (∀ n, ¬IsMisspeltAt source.toList n) ∧
        IsLeast {n | IsMistypedAt ctx source.toList n} error.line ∧
        ∃ code tree u, HoldsAt source.toList error.line code ∧ IsLine code tree ∧
          IsFirstMisuse ctx tree.uses u ∧ error.column = u.column := by
  rcases bind_eq_error.1 failed with failed | ⟨fs, -, hnever⟩
  · cases hread : readNumbered source.toList with
    | error e =>
      rw [Formula.readSource_eq, hread] at failed
      obtain rfl := Except.error.inj failed
      exact .inl (ParseTree.isLeast_of_readNumbered_eq_error hread)
    | ok trees =>
      refine .inr ⟨?_, Formula.isLeast_of_readSource_eq_error built hread failed⟩
      rintro n ⟨code, holds, none⟩
      obtain ⟨entry, -, -, line⟩ := exists_of_mem_left
        (readNumbered_eq_ok_iff.1 hread) (mem_statementLines_iff.2 holds)
      exact none entry.2 line
  · cases hnever

/-- **Sources are read line by line.** A source is read exactly if each of its lines that is not
blank before a comment is a statement of the grammar in which all names are used properly. Then the
statements are those of these lines, in their order, with the variables of each numbered by their
first occurrence on the line. They are typed, and the test of every kernel of the context says so if
the source is not too long for a row. If the source is not read then the first line is reported that
is no statement of the grammar or, if all are, the first one that is not typed, at the first name in
it that is not used properly. -/
theorem readSource_by_lines (built : ctx.Built) (source : String) :
    ((∃ ss, readSource ctx source = .ok ss) ↔
      ∀ number code, HoldsAt source.toList number code →
        ∃ tree, IsLine code tree ∧ tree.IsTyped ctx) ∧
    (∀ ss, readSource ctx source = .ok ss →
      (∃ found, Lists source.toList found ∧
        List.Forall₂ (fun line s => ∃ tree e, IsLine line.2 tree ∧ tree.Denotes ctx e ∧
          s = ofEquation ctx e) found ss) ∧
      (∀ s ∈ ss, s.equation.isTyped ctx.signature = true) ∧
      (2 * source.length ≤ DenseMap.limit → ∀ k : Kernel, k.ctx = ctx → k.isValid ss = .ok true)) ∧
    ∀ error, readSource ctx source = .error error →
      IsLeast {n | IsMisspeltAt source.toList n} error.line ∨
      (∀ n, ¬IsMisspeltAt source.toList n) ∧
        IsLeast {n | IsMistypedAt ctx source.toList n} error.line ∧
        ∃ code tree u, HoldsAt source.toList error.line code ∧ IsLine code tree ∧
          IsFirstMisuse ctx tree.uses u ∧ error.column = u.column := by
  refine ⟨⟨?_, ?_⟩, ?_, fun error failed => of_readSource_eq_error built failed⟩
  · rintro ⟨ss, ok⟩ number code holds
    exact exists_tree_of_holdsAt built ok holds
  · intro typed
    cases hread : readSource ctx source with
    | ok ss => exact ⟨ss, rfl⟩
    | error e =>
      rcases of_readSource_eq_error built hread with least | ⟨-, least, -⟩
      · obtain ⟨code, holds, none⟩ := least.1
        obtain ⟨tree, line, -⟩ := typed _ _ holds
        exact absurd line (none tree)
      · obtain ⟨code, tree, holds, line, untyped⟩ := least.1
        obtain ⟨tree', line', typed⟩ := typed _ _ holds
        exact absurd (line'.unique line ▸ typed) untyped
  · intro ss ok
    refine ⟨⟨_, lists_statementLines _, denotes_of_readSource ok⟩,
      fun s hs => isTyped_of_mem_readSource ok hs, ?_⟩
    rintro short k rfl
    refine Kernel.isValid_eq_ok_true_iff.2 fun s hs => ?_
    have fit := Equation.fitRows_of_isNarrow (isNarrow_of_readSource ok short hs)
    exact (denotes_of_mem_readSource ok hs).isTyped_eq_ok_iff.2
      ⟨fit, isTyped_of_mem_readSource ok hs⟩

/-- Of two wrong lines the later one is reported, which is no statement of the grammar. -/
theorem readSource_by_lines_involution :
    (∃ found, Lists "# a law\r\n\r\ni(i(x)) = x # twice\ny = i(x)".toList found ∧
      List.Forall₂ (fun line s => ∃ tree e, IsLine line.2 tree ∧ tree.Denotes .involution e ∧
        s = ofEquation .involution e) found
        [ofEquation .involution ⟨.app 0 [.app 0 [.var 0]], .var 0⟩,
          ofEquation .involution ⟨.var 0, .app 0 [.var 1]⟩]) ∧
    IsLeast {n | IsMisspeltAt "i(x, y) = x\n\ni(x = x".toList n} 2 := by
  constructor
  · refine ((readSource_by_lines Context.built_involution _).2.1 _ ?_).1
    exact toOption_eq_some.1 (by decide +kernel)
  · obtain ⟨e, hread, hline⟩ : ∃ e,
        readSource .involution "i(x, y) = x\n\ni(x = x" = .error e ∧ e.line = 2 := by
      have hlines : (readSource .involution "i(x, y) = x\n\ni(x = x").mapError ReadError.line =
          .error 2 := by decide +kernel
      cases hread : readSource .involution "i(x, y) = x\n\ni(x = x" with
      | ok ss => rw [hread] at hlines; cases hlines
      | error e => rw [hread] at hlines; exact ⟨e, rfl, Except.error.inj hlines⟩
    rw [← hline]
    refine ((readSource_by_lines Context.built_involution _).2.2 e hread).resolve_right ?_
    rintro ⟨-, -, code, tree, _, holds, line, -⟩
    have hheld : statementLines "i(x, y) = x\n\ni(x = x".toList =
        [(0, "i(x, y) = x".toList), (2, "i(x = x".toList)] := by decide +kernel
    rw [hline, ← mem_statementLines_iff, hheld] at holds
    obtain rfl : code = "i(x = x".toList := by simpa using holds
    have hfails : (readLine "i(x = x".toList).isOk = false := by decide +kernel
    rw [readLine_eq_ok_iff.2 line] at hfails
    cases hfails

end Statement

end Equational
