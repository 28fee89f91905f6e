import Equational.Proofs.Comparing
import Equational.Proofs.Equivalence
import Equational.Proofs.Filling
import Equational.Proofs.Resolving
import Equational.Proofs.Typing

/-!
# Statements printed and read back

A printed term is an expression of the grammar: symbols have names that are words of the grammar,
and so have variables. Reading it back resolves the names of symbols to the symbols, since no two
have the same name, and numbers the variables anew by their first occurrence, provided that no
variable is printed like a symbol. So a statement comes back up to a renumbering of its variables
(`Statement.readOne_text`).
-/

namespace Equational

open Text

/-! ### Names of variables -/

theorem toList_variableText (id : Nat) : (variableText id).toList = 'x' :: Nat.toDigits 10 id := by
  show ("x" ++ toString id).toList = _
  rw [String.toList_append, Nat.toString_eq_ofList_toDigits]
  simp

theorem variableText_injective {a b : Nat} (h : variableText a = variableText b) : a = b := by
  have htext := congrArg String.toList h
  rw [toList_variableText, toList_variableText] at htext
  have hdigits : Nat.toDigits 10 a = Nat.toDigits 10 b := (List.cons.inj htext).2
  calc
    a = Nat.ofDigitChars 10 (Nat.toDigits 10 a) 0 := Nat.ofDigitChars_ten_toDigits.symm
    _ = Nat.ofDigitChars 10 (Nat.toDigits 10 b) 0 := by rw [hdigits]
    _ = b := Nat.ofDigitChars_ten_toDigits

theorem isName_variableText (id : Nat) : IsName (variableText id) := by
  rw [IsName, toList_variableText]
  refine ⟨List.cons_ne_nil _ _, fun c hc => ?_⟩
  rcases List.mem_cons.1 hc with rfl | hc
  · decide
  · have hdigit := Nat.isDigit_of_mem_toDigits (by decide) (by decide) hc
    show (c.isAlpha || c.isDigit || _) = true
    rw [hdigit, Bool.or_true, Bool.true_or]

/-! ### Printed terms in the grammar -/

variable {ctx : Context}

/-- The tree has the shape of the term and its names, at whatever columns. -/
inductive Shows (ctx : Context) : Term → ParseTree → Prop
  | var (id column : Nat) : Shows ctx (.var id) (.name (variableText id) [] column)
  | const {symbol : Nat} {entry : Symbol} (found : ctx.signature.get? symbol = some entry)
      (arity : entry.arity = 0) (column : Nat) :
      Shows ctx (.const symbol) (.name entry.name [] column)
  | app {symbol : Nat} {entry : Symbol} {args : List Term} {trees : List ParseTree}
      (found : ctx.signature.get? symbol = some entry) (arity : entry.arity = args.length)
      (applied : args ≠ []) (each : List.Forall₂ (Shows ctx) args trees) (column : Nat) :
      Shows ctx (.app symbol args) (.name entry.name trees column)

/-- The characters of a printed statement: those of names, and a few signs. -/
def IsPrinted (c : Char) : Prop := isNameChar c = true ∨ c ∈ ['(', ')', ',', ' ', '=']

instance {c : Char} : Decidable (IsPrinted c) := inferInstanceAs (Decidable (_ ∨ _))

/-- The text is an expression of the grammar that shows the term. -/
structure Printed (ctx : Context) (t : Term) (text : String) : Prop where
  chars : ∀ c ∈ text.toList, IsPrinted c
  spells : ∀ column, ∃ tree, Shows ctx t tree ∧ ParseTree.Spells column text.toList tree

theorem toList_commaSeparated_cons_cons (text text' : String) (texts : List String) :
    (commaSeparated (text :: text' :: texts)).toList =
      text.toList ++ ',' :: ([' '] ++ (commaSeparated (text' :: texts)).toList) := by
  show (text ++ ", " ++ commaSeparated (text' :: texts)).toList = _
  rw [String.toList_append, String.toList_append, List.append_assoc]
  rfl

theorem printed_args {args : List Term} {texts : List String}
    (each : List.Forall₂ (Printed ctx) args texts) (applied : args ≠ []) :
    (∀ c ∈ (commaSeparated texts).toList, IsPrinted c) ∧
      ∀ column gap, IsGap gap → ∃ trees, List.Forall₂ (Shows ctx) args trees ∧
        ParseTree.SpellsArgs ParseTree.Spells column
          (gap ++ (commaSeparated texts).toList ++ [')']) trees := by
  induction each with
  | nil => exact absurd rfl applied
  | @cons t text args texts first others ih =>
    cases others with
    | nil =>
      refine ⟨first.chars, fun column gap hgap => ?_⟩
      obtain ⟨tree, shown, spelt⟩ := first.spells (column + gap.length)
      have hargs := ParseTree.SpellsArgs.last hgap spelt isGap_nil
      rw [List.append_nil] at hargs
      exact ⟨[tree], .cons shown .nil, hargs⟩
    | @cons t' text' args texts second others =>
      obtain ⟨hchars, hspells⟩ := ih (by simp)
      rw [toList_commaSeparated_cons_cons]
      constructor
      · intro c hc
        simp only [List.mem_append, List.mem_cons, List.not_mem_nil, or_false] at hc
        rcases hc with hc | rfl | rfl | hc
        · exact first.chars c hc
        · exact .inr (by decide)
        · exact .inr (by decide)
        · exact hchars c hc
      · intro column gap hgap
        obtain ⟨tree, shown, spelt⟩ := first.spells (column + gap.length)
        obtain ⟨trees, shownRest, speltRest⟩ :=
          hspells (column + gap.length + text.toList.length + 0 + 1) [' '] isGap_blank
        refine ⟨tree :: trees, .cons shown shownRest, ?_⟩
        have hargs := ParseTree.SpellsArgs.more hgap spelt isGap_nil speltRest
        simpa using hargs

theorem forall₂_of_mem {α β : Type} {R S : α → β → Prop} {l : List α} {l' : List β}
    (h : List.Forall₂ R l l') (each : ∀ a ∈ l, ∀ b, R a b → S a b) : List.Forall₂ S l l' := by
  induction h with
  | nil => exact .nil
  | cons first _ ih =>
    refine .cons (each _ List.mem_cons_self _ first) (ih fun a ha => ?_)
    exact each a (List.mem_cons_of_mem _ ha)

theorem printed_name {name : String} (isName : IsName name) {t : Term}
    (shown : ∀ column, Shows ctx t (.name name [] column)) : Printed ctx t name :=
  ⟨fun c hc => .inl (isName.2 c hc), fun column => ⟨_, shown column, .name isName⟩⟩

theorem printed_of_text (built : ctx.Built) {t : Term} (covered : ctx.vocabulary.Covers t)
    {text : String} (ok : t.text ctx = .ok text) : Printed ctx t text := by
  have isName {symbol : Nat} {entry : Symbol} (found : ctx.signature.get? symbol = some entry) :
      IsName entry.name := built.draft.1.isName entry (List.mem_of_getElem? found)
  induction covered generalizing text with
  | var id =>
    obtain rfl := Except.ok.inj ok
    exact printed_name (isName_variableText id) (.var id)
  | const known =>
    obtain ⟨entry, found, rfl⟩ := Context.nameOf_eq_ok_iff.1 ok
    obtain ⟨entry', found', harity⟩ := Signature.declares_iff.1 known
    obtain rfl := Option.some.inj (found.symm.trans found')
    exact printed_name (isName found) (.const found harity)
  | @app symbol args known _ ih =>
    obtain ⟨texts, entry, htexts, found, rfl⟩ := Term.text_app_eq_ok_iff.1 ok
    obtain ⟨entry', found', harity⟩ := Signature.declares_iff.1 known.2.2
    obtain rfl := Option.some.inj (found.symm.trans found')
    have applied : args ≠ [] := List.length_pos_iff.1 known.1
    have each : List.Forall₂ (Printed ctx) args texts :=
      forall₂_of_mem htexts fun t ht text htext => ih t ht htext
    obtain ⟨hchars, hspells⟩ := printed_args each applied
    have htext : (applicationText entry.name texts).toList =
        entry.name.toList ++ [] ++ '(' :: ([] ++ (commaSeparated texts).toList ++ [')']) := by
      simp [applicationText]
    constructor
    · intro c hc
      rw [htext] at hc
      simp only [List.append_nil, List.nil_append, List.mem_append, List.mem_cons, List.not_mem_nil,
        or_false] at hc
      rcases hc with hc | rfl | hc | rfl
      · exact .inl ((isName found).2 c hc)
      · exact .inr (by decide)
      · exact hchars c hc
      · exact .inr (by decide)
    · intro column
      obtain ⟨trees, shown, spelt⟩ :=
        hspells (column + entry.name.toList.length + 0 + 1) [] isGap_nil
      rw [htext]
      exact ⟨_, .app found harity applied shown column, .call (isName found) isGap_nil spelt⟩

/-! ### Names resolved again -/

/-- The names known after some variables: each variable once, by its first occurrence. -/
def knownNames (seen : List Nat) : List String := seen.eraseDups.map variableText

theorem eraseDups_prefix_append {α : Type} [BEq α] [LawfulBEq α] (seen more : List α) :
    seen.eraseDups <+: (seen ++ more).eraseDups := by
  rw [List.eraseDups_append]
  exact List.prefix_append _ _

/-- A tree that shows a term is resolved to the term with its variables numbered by their place
among all variables. -/
def Resolves (ctx : Context) (all : List Nat) (t : Term) (tree : ParseTree) : Prop :=
  ∀ ⦃seen : List Nat⦄, (seen ++ t.vars).eraseDups <+: all →
    ∃ f, tree.resolveTerm ctx (knownNames seen) = .ok (f, knownNames (seen ++ t.vars)) ∧
      f.term = .ok (t.rename fun id => all.idxOf id)

theorem idxOf?_map_variableText (ids : List Nat) (id : Nat) :
    (ids.map variableText).idxOf? (variableText id) = ids.idxOf? id := by
  rw [List.idxOf?, List.findIdx?_map, List.idxOf?]
  congr 1
  funext other
  rw [Function.comp_apply, Bool.eq_iff_iff, beq_iff_eq, beq_iff_eq]
  exact ⟨variableText_injective, congrArg variableText⟩

theorem eraseDups_concat {α : Type} [DecidableEq α] (seen : List α) (id : α) :
    (seen ++ [id]).eraseDups =
      if id ∈ seen.eraseDups then seen.eraseDups else seen.eraseDups ++ [id] := by
  rw [List.eraseDups_append]
  split
  next hmem => simp [List.removeAll, List.mem_eraseDups.1 hmem]
  next hmem =>
    have hseen : id ∉ seen := fun h => hmem (List.mem_eraseDups.2 h)
    simp [List.removeAll, hseen, List.eraseDups_cons]

theorem nodup_eraseDups {α : Type} [DecidableEq α] (l : List α) : l.eraseDups.Nodup := by
  induction l using List.reverseRecOn with
  | nil => exact .nil
  | append_singleton l a ih =>
    rw [eraseDups_concat]
    split
    next => exact ih
    next hmem =>
      rw [← List.concat_eq_append]
      exact ih.concat hmem

theorem resolves_var {all : List Nat} {id column : Nat}
    (fresh : ctx.find? (variableText id) = none) :
    Resolves ctx all (.var id) (.name (variableText id) [] column) := by
  intro seen starts
  obtain ⟨more, rfl⟩ := starts
  rw [ParseTree.resolveTerm, fresh, knownNames, knownNames, Term.vars, eraseDups_concat]
  simp only [List.isEmpty_nil, Bool.not_true, Bool.false_eq_true, if_false, idxOf?_map_variableText]
  cases hknown : seen.eraseDups.idxOf? id with
  | some k =>
    have hmem : id ∈ seen.eraseDups := by
      rw [← List.isSome_idxOf?, hknown]
      rfl
    have hplace : (seen.eraseDups ++ more).idxOf id = k := by
      rw [List.idxOf_append_of_mem hmem, List.idxOf_eq_getD_idxOf?, hknown]
      rfl
    rw [if_pos hmem]
    refine ⟨.free k, rfl, ?_⟩
    simp only [Formula.term, Term.rename, Term.bind_var, hplace]
    rfl
  | none =>
    have hmem : id ∉ seen.eraseDups := List.idxOf?_eq_none_iff.1 hknown
    have hplace : (seen.eraseDups ++ [id] ++ more).idxOf id = seen.eraseDups.length := by
      rw [List.append_assoc, List.idxOf_append, if_neg hmem, List.singleton_append,
        List.idxOf_cons_self, Nat.zero_add]
    rw [if_neg hmem]
    refine ⟨.free seen.eraseDups.length, ?_, ?_⟩
    · rw [List.length_map, List.map_append, List.map_singleton]
    · simp only [Formula.term, Term.rename, Term.bind_var, hplace]
      rfl

theorem resolves_args {all : List Nat} {args : List Term} {trees : List ParseTree}
    (each : List.Forall₂ (Resolves ctx all) args trees) {seen : List Nat}
    (starts : (seen ++ Term.varsArgs args).eraseDups <+: all) :
    ∃ fs, ParseTree.resolveArgs ctx trees (knownNames seen) =
        .ok (fs, knownNames (seen ++ Term.varsArgs args)) ∧
      List.Forall₂ (fun f t => Formula.term f = .ok t) fs
        (args.map (Term.rename fun id => all.idxOf id)) := by
  induction each generalizing seen with
  | nil => exact ⟨[], by simp [ParseTree.resolveArgs, Term.varsArgs], .nil⟩
  | @cons t tree args trees first others ih =>
    -- The other arguments are resolved after the variables of the first one were seen.
    rw [Term.varsArgs, ← List.append_assoc] at starts
    obtain ⟨f, hf, hterm⟩ := first ((eraseDups_prefix_append _ _).trans starts)
    obtain ⟨fs, hfs, hterms⟩ := ih starts
    refine ⟨f :: fs, ?_, .cons hterm hterms⟩
    rw [ParseTree.resolveArgs, hf]
    simp only [hfs, Term.varsArgs, List.append_assoc]

theorem resolves_of_shows (built : ctx.Built) {all : List Nat} {t : Term} {tree : ParseTree}
    (shown : Shows ctx t tree) (fresh : ∀ id ∈ t.vars, ctx.find? (variableText id) = none) :
    Resolves ctx all t tree := by
  induction t generalizing tree with
  | var id =>
    cases shown with
    | var _ column => exact resolves_var (fresh id (by simp))
  | const symbol =>
    cases shown with
    | @const _ entry found harity column =>
      intro seen _
      refine ⟨.const symbol, ?_, rfl⟩
      rw [ParseTree.resolveTerm, built.find?_name found]
      simp [Signature.arity?, found, harity, Term.vars]
  | app symbol args ih =>
    cases shown with
    | @app _ entry _ trees found harity applied each column =>
      intro seen starts
      have resolved : List.Forall₂ (Resolves ctx all) args trees :=
        forall₂_of_mem each fun t ht tree shown =>
          ih t ht shown fun id hid => fresh id (Term.mem_vars_app.2 ⟨t, ht, hid⟩)
      obtain ⟨fs, hfs, hterms⟩ := resolves_args resolved starts
      refine ⟨.func symbol fs, ?_, ?_⟩
      · have hcount : entry.arity = trees.length := harity.trans each.length_eq
        have hpos : entry.arity ≠ 0 := by
          rw [harity]
          exact Nat.ne_of_gt (List.length_pos_iff.2 applied)
        rw [ParseTree.resolveTerm, built.find?_name found]
        simp only [Signature.arity?, found, Option.map_some, Option.getD_some, hcount, ne_eq,
          not_true_eq_false, if_false]
        rw [if_neg (hcount ▸ hpos), hfs]
        rfl
      · refine Formula.term_func_eq_ok_iff.2 ⟨_, hterms, by simpa using applied, ?_⟩
        rw [Term.rename_app]

/-! ### Printed lines -/

namespace Text

theorem linesAfter_eq (line : List Char) {cs : List Char} (h : '\n' ∉ cs) :
    linesAfter line cs = if line.isEmpty && cs.isEmpty then [] else [line.reverse ++ cs] := by
  induction cs generalizing line with
  | nil => simp [linesAfter]
  | cons c cs ih =>
    have hc : c ≠ '\n' := fun heq => h (heq ▸ List.mem_cons_self)
    rw [linesAfter, ih _ fun hmem => h (List.mem_cons_of_mem _ hmem)]
    · simp
    · exact hc

end Text

theorem statementLines_eq {cs : List Char} (printed : ∀ c ∈ cs, IsPrinted c)
    (visible : ∃ c ∈ cs, isBlank c = false) : ParseTree.statementLines cs = [(0, cs)] := by
  have absent {sign : Char} (hsign : ¬IsPrinted sign) : sign ∉ cs := fun h => hsign (printed _ h)
  have hlines : lines cs = [cs] := by
    obtain ⟨c, hc, -⟩ := visible
    rw [lines, linesAfter_eq [] (absent (by decide))]
    simp [List.ne_nil_of_mem hc]
  have hcomment : withoutComment cs = cs := by
    refine (takeWhile_and_drop_iff.2 ⟨(List.append_nil cs).symm, fun c hc => ?_, by simp⟩).1
    refine bne_iff_ne.2 fun heq => ?_
    exact absent (by decide) (heq ▸ hc)
  have hvisible : cs.all isBlank = false := by
    obtain ⟨c, hc, hblank⟩ := visible
    exact List.all_eq_false.2 ⟨c, hc, by simp [hblank]⟩
  simp [ParseTree.statementLines, ParseTree.statementsAmong, hlines, hcomment, hvisible]

/-! ### The round trip -/

namespace Equation

/-- The equation with its variables numbered by their first occurrence. -/
def renumbered (e : Equation) : Equation := e.rename fun id => e.vars.eraseDups.idxOf id

/-- The variables are numbered by their first occurrence. -/
def IsNumbered (e : Equation) : Prop := e.vars.eraseDups = List.range e.vars.eraseDups.length

theorem equivalent_renumbered (e : Equation) : e.equivalent e.renumbered = true := by
  refine equivalent_iff.2 ⟨_, ?_, .inl rfl⟩
  intro a ha b _ heq
  exact (List.idxOf_inj (List.mem_eraseDups.2 ha)).1 heq

theorem IsNumbered.renumbered_eq {e : Equation} (numbered : e.IsNumbered) : e.renumbered = e := by
  refine bind_eq_self fun id hid => ?_
  have hmem : id ∈ List.range e.vars.eraseDups.length := numbered ▸ List.mem_eraseDups.2 hid
  have hplace : (List.range e.vars.eraseDups.length).idxOf id = id :=
    (List.getElem_range _).symm.trans (List.getElem_idxOf (List.idxOf_lt_length_of_mem hmem))
  show Term.var (e.vars.eraseDups.idxOf id) = .var id
  rw [numbered, hplace]

/-- There are no more variables than ids between the bounds of all of them. -/
theorem isNarrow_renumbered {e : Equation} (narrow : DenseMap.IsNarrow e.vars) :
    DenseMap.IsNarrow e.renumbered.vars := by
  obtain ⟨lo, hi, near, within⟩ := narrow.exists_bounds
  have hcount : e.vars.eraseDups.length ≤ hi - lo := by
    have hsub : e.vars.eraseDups ⊆ List.range' lo (hi - lo) := by
      intro id hid
      have hbounds := within id (List.mem_eraseDups.1 hid)
      exact List.mem_range'_1.2 (by omega)
    have hlength := ((nodup_eraseDups e.vars).subperm hsub).length_le
    rwa [List.length_range'] at hlength
  have hlt : ∀ id ∈ e.renumbered.vars, id < e.vars.eraseDups.length := by
    intro id hid
    obtain ⟨id', hid', rfl⟩ := mem_vars_rename.1 hid
    exact List.idxOf_lt_length_of_mem (List.mem_eraseDups.2 hid')
  intro i _ j hj
  have hj := hlt j hj
  omega

end Equation

theorem toList_equalityText (l r : String) :
    (equalityText l r).toList = [] ++ l.toList ++ [' '] ++ '=' :: ([' '] ++ r.toList ++ []) := by
  simp [equalityText]

section Equalities

variable {e : Equation} {l r : String}

theorem isLine_equalityText (left : Printed ctx e.lhs l) (right : Printed ctx e.rhs r) :
    ∃ lhs rhs, Shows ctx e.lhs lhs ∧ Shows ctx e.rhs rhs ∧
      ParseTree.IsLine (equalityText l r).toList (.equality lhs rhs) := by
  obtain ⟨lhs, shown, spelt⟩ := left.spells 0
  obtain ⟨rhs, shown', spelt'⟩ := right.spells (0 + l.toList.length + 1 + 1 + 1)
  refine ⟨lhs, rhs, shown, shown', ?_⟩
  rw [toList_equalityText]
  exact .equality isGap_nil spelt isGap_blank isGap_blank spelt' isGap_nil

theorem statementLines_equalityText (left : Printed ctx e.lhs l) (right : Printed ctx e.rhs r) :
    ParseTree.statementLines (equalityText l r).toList = [(0, (equalityText l r).toList)] := by
  refine statementLines_eq ?_ ⟨'=', ?_, by decide⟩
  · intro c hc
    rw [toList_equalityText] at hc
    simp only [List.append_nil, List.nil_append, List.mem_append, List.mem_cons, List.not_mem_nil,
      or_false] at hc
    rcases hc with (hc | rfl) | rfl | rfl | hc
    · exact left.chars c hc
    · exact .inr (by decide)
    · exact .inr (by decide)
    · exact .inr (by decide)
    · exact right.chars c hc
  · rw [toList_equalityText]
    simp

theorem resolve_of_shows (built : ctx.Built) {lhs rhs : ParseTree} (left : Shows ctx e.lhs lhs)
    (right : Shows ctx e.rhs rhs) (fresh : ∀ id ∈ e.vars, ctx.find? (variableText id) = none) :
    ∃ f, (ParseTree.equality lhs rhs).resolve ctx = .ok f ∧ f.equation = .ok e.renumbered := by
  have resolves {t : Term} {tree : ParseTree} (shown : Shows ctx t tree)
      (within : ∀ id ∈ t.vars, id ∈ e.vars) : Resolves ctx e.vars.eraseDups t tree :=
    resolves_of_shows built shown fun id hid => fresh id (within id hid)
  have hleft : ([] ++ e.lhs.vars).eraseDups <+: e.vars.eraseDups := eraseDups_prefix_append _ _
  have hright : (e.lhs.vars ++ e.rhs.vars).eraseDups <+: e.vars.eraseDups := List.prefix_rfl
  obtain ⟨f, hf, hterm⟩ := resolves left (fun id hid => Equation.mem_vars.2 (.inl hid)) hleft
  obtain ⟨f', hf', hterm'⟩ := resolves right (fun id hid => Equation.mem_vars.2 (.inr hid)) hright
  refine ⟨.equality f f', ?_, ?_⟩
  · rw [ParseTree.resolve_equality]
    exact bind_eq_ok.2 ⟨_, hf, bind_eq_ok.2 ⟨_, hf', rfl⟩⟩
  · exact bind_eq_ok.2 ⟨_, hterm, bind_eq_ok.2 ⟨_, hterm', rfl⟩⟩

end Equalities

namespace Statement

open DenseMap (IsNarrow)

variable {s : Statement}

theorem readOne_of_line {text : String} {tree : ParseTree} {f : Formula} {e : Equation}
    (alone : ParseTree.statementLines text.toList = [(0, text.toList)])
    (line : ParseTree.IsLine text.toList tree) (resolved : tree.resolve ctx = .ok f)
    (equation : f.equation = .ok e) : readOne ctx text = .ok (ofEquation ctx e) := by
  have htrees : ParseTree.readNumbered text.toList = .ok [(0, tree)] := by
    rw [ParseTree.readNumbered, alone]
    refine mapM_eq_ok_iff.2 (.cons ?_ .nil)
    rw [ParseTree.readLine_eq_ok_iff.2 line]
    rfl
  have hformulas : Formula.readSource ctx text.toList = .ok [f] := by
    rw [Formula.readSource_eq]
    refine bind_eq_ok.2 ⟨_, htrees, mapM_eq_ok_iff.2 (.cons ?_ .nil)⟩
    rw [resolved]
    rfl
  have hstatements : readSource ctx text = .ok [ofEquation ctx e] := by
    refine bind_eq_ok.2 ⟨_, hformulas, ?_⟩
    have hstatement : ofFormula ctx f = .ok (ofEquation ctx e) := bind_eq_ok.2 ⟨e, equation, rfl⟩
    simp [hstatement, Except.toOption, pure, Except.pure]
  exact bind_eq_ok.2 ⟨_, hstatements, rfl⟩

theorem equation_ofEquation (ctx : Context) (e : Equation) : (ofEquation ctx e).equation = e := by
  show Equation.mk (TermGraph.ofTerm e.lhs).term (TermGraph.ofTerm e.rhs).term = e
  rw [TermGraph.term_ofTerm, TermGraph.term_ofTerm]

/-- **Printing and reading back.** A statement of a context that was built has a text if and only if
the variables of each side fit into one row. Its text is read as the same statement with its
variables numbered by their first occurrence, left side first. Its applications have arguments, as
records have, and no variable of it is printed like a symbol. -/
theorem readOne_text (built : s.ctx.Built) (acyclic : s.IsAcyclic)
    (typed : s.equation.isTyped s.ctx.signature = true)
    (applied : ∀ side, Vocabulary.plain.Covers (s.side side).term)
    (fresh : ∀ id ∈ s.equation.vars, s.ctx.isDefined (variableText id) = false) :
    ((∃ text, s.text = .ok text) ↔ s.equation.FitRows) ∧
      ∀ text, s.text = .ok text →
        readOne s.ctx text = .ok (ofEquation s.ctx s.equation.renumbered) ∧
        (∀ answer, (ofEquation s.ctx s.equation.renumbered).equivalent s = .ok answer →
          answer = true) ∧
        (IsNarrow s.equation.vars →
          (ofEquation s.ctx s.equation.renumbered).equivalent s = .ok true) ∧
        (s.equation.IsNumbered → (ofEquation s.ctx s.equation.renumbered).identical s = true) := by
  have sides := Bool.and_eq_true_iff.1 typed
  have left : s.ctx.vocabulary.Covers s.equation.lhs :=
    built.covers (applied .lhs) (fun _ _ h => h) sides.1
  have right : s.ctx.vocabulary.Covers s.equation.rhs :=
    built.covers (applied .rhs) (fun _ _ h => h) sides.2
  have unknown : ∀ id ∈ s.equation.vars, s.ctx.find? (variableText id) = none := by
    intro id hid
    simpa [Context.isDefined] using fresh id hid
  have same : s.equation.renumbered.equivalent s.equation = true :=
    Equation.equivalent_symm s.equation.equivalent_renumbered
  have renumbered := denotes_ofEquation s.ctx s.equation.renumbered
  constructor
  · constructor
    · rintro ⟨text, ok⟩
      exact (acyclic.denotes.text_eq_ok_iff.1 ok).1
    · intro fit
      obtain ⟨text, htext⟩ := Equation.exists_text left right
      exact ⟨text, acyclic.denotes.text_eq_ok_iff.2 ⟨fit, htext⟩⟩
  · intro text ok
    obtain ⟨-, htext⟩ := acyclic.denotes.text_eq_ok_iff.1 ok
    obtain ⟨l, hl, htext⟩ := bind_eq_ok.1 htext
    obtain ⟨r, hr, htext⟩ := bind_eq_ok.1 htext
    obtain rfl : equalityText l r = text := Except.ok.inj htext
    refine ⟨?_, ?_, ?_, ?_⟩
    · have printed := printed_of_text built left hl
      have printed' := printed_of_text built right hr
      obtain ⟨lhs, rhs, shown, shown', line⟩ := isLine_equalityText printed printed'
      obtain ⟨f, resolved, equation⟩ := resolve_of_shows built shown shown' unknown
      exact readOne_of_line (statementLines_equalityText printed printed') line resolved equation
    · intro answer hanswer
      rw [renumbered.of_equivalent acyclic.denotes hanswer, same]
    · intro narrow
      rw [renumbered.equivalent_eq acyclic.denotes (Equation.isNarrow_renumbered narrow) narrow,
        same]
    · intro numbered
      rw [identical, equation_ofEquation, numbered.renumbered_eq]
      exact beq_self_eq_true _

def misnumbered : Statement := ofEquation .involution ⟨.app 0 [.app 0 [.var 9]], .app 0 [.var 4]⟩

/-- The variables 9 and 4 come back as 0 and 1. -/
theorem readOne_text_misnumbered :
    ∃ text, misnumbered.text = .ok text ∧ readOne .involution text =
      .ok (ofEquation .involution ⟨.app 0 [.app 0 [.var 0]], .app 0 [.var 1]⟩) := by
  have equation : misnumbered.equation = ⟨.app 0 [.app 0 [.var 9]], .app 0 [.var 4]⟩ :=
    equation_ofEquation .involution _
  have app {t : Term} (h : Vocabulary.plain.Covers t) : Vocabulary.plain.Covers (.app 0 [t]) := by
    refine .app Nat.one_pos fun t' ht' => ?_
    obtain rfl := List.mem_singleton.1 ht'
    exact h
  have applied : ∀ side, Vocabulary.plain.Covers (misnumbered.side side).term := by
    rintro (_ | _)
    · show Vocabulary.plain.Covers misnumbered.equation.lhs
      rw [equation]
      exact app (app (.var 9))
    · show Vocabulary.plain.Covers misnumbered.equation.rhs
      rw [equation]
      exact app (.var 4)
  have fresh : ∀ id ∈ misnumbered.equation.vars,
      Context.involution.isDefined (variableText id) = false := by
    intro id hid
    rw [equation, Equation.mem_vars] at hid
    simp only [Term.mem_vars_app, List.mem_singleton, exists_eq_left, Term.mem_vars_var] at hid
    rcases hid with rfl | rfl <;> decide +kernel
  have acyclic : misnumbered.IsAcyclic := isAcyclic_ofEquation _ _
  obtain ⟨succeeds, reads⟩ := readOne_text Context.built_involution acyclic
    (by rw [equation]; decide) applied fresh
  have fit : misnumbered.equation.FitRows := Equation.fitRows_of_isNarrow (by
    rw [equation]
    decide)
  obtain ⟨text, htext⟩ := succeeds.2 fit
  refine ⟨text, htext, (reads text htext).1.trans ?_⟩
  rw [equation]
  rfl

/-- A statement whose variables are the first and the last one of all is typed, and none of its
variables is printed like a symbol, but it has no text. -/
theorem readOne_text_not_apart :
    Context.paired.Built ∧ apart.ctx = .paired ∧ apart.IsAcyclic ∧
      apart.equation.isTyped Context.paired.signature = true ∧
      (∀ side, Vocabulary.plain.Covers (apart.side side).term) ∧
      (∀ id ∈ apart.equation.vars, Context.paired.isDefined (variableText id) = false) ∧
      apart.text = .error .rowTooLong := by
  refine ⟨Context.built_paired, rfl, isAcyclic_apart, by decide, ?_, by decide +kernel, rfl⟩
  rintro (_ | _)
  · exact Expression.covers_apart
  · exact .var 0

end Statement

end Equational
