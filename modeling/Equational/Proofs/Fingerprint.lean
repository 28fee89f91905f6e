import Equational.Proofs.RuleSet

/-!
# Fingerprints

The fingerprint of a kernel has the texts of its rules and not the rules. A printed term is cut up
at the ends of its names, so its text tells its shape, and it tells the symbols as far as names do.
A constant may however be named like a variable is printed. Where this does not happen
(`Kernel.IsLegible`), kernels with the same fingerprint have the same rules and give the same
answers (`Kernel.fingerprint_eq_iff_of_legible`). Where it does happen, they may answer differently
(`Kernel.fingerprints_clash`).
-/

namespace Equational

open Text ParseTree

/-! ### Names at the start of a text -/

/-- What a name is followed by tells where it ends. -/
theorem name_append_inj {name name' : String} {r r' : List Char} (isName : IsName name)
    (isName' : IsName name') (ends : EndsName r) (ends' : EndsName r')
    (h : name.toList ++ r = name'.toList ++ r') : name = name' ∧ r = r' := by
  obtain ⟨htake, hdrop⟩ := takeWhile_and_drop_iff.2 ⟨h, isName'.2, ends'⟩
  obtain ⟨htake', hdrop'⟩ := takeWhile_and_drop_iff.2 ⟨rfl, isName.2, ends⟩
  exact ⟨String.toList_inj.1 (htake'.symm.trans htake), hdrop'.symm.trans hdrop⟩

theorem ParseTree.Follows.ne_open {r rest : List Char} (follows : Follows r) : r ≠ '(' :: rest := by
  rintro rfl
  have htaken : Input.take? '(' ⟨0, '(' :: rest⟩ = some ⟨1, rest⟩ :=
    Input.take?_append 0 isGap_nil (by decide)
  rw [follows.2 0] at htaken
  cases htaken

/-! ### Texts of terms -/

variable {ctx ctx' : Context} {s : Signature} {t t' : Term} {name : String}

namespace Term

/-- The term passes the test, and no constant has a name like a variable of it is printed. -/
structure IsLegible (s : Signature) (t : Term) : Prop where
  typed : t.isTyped s = true
  apart : ∀ id ∈ t.vars, ⟨variableText id, 0⟩ ∉ s.symbols

theorem IsLegible.arg {symbol : Nat} {args : List Term} (legible : (app symbol args).IsLegible s)
    (ht : t ∈ args) : t.IsLegible s := by
  refine ⟨(isTyped_app_iff.1 legible.typed).2 t ht, ?_⟩
  intro id hid
  exact legible.apart id (mem_vars_app.2 ⟨t, ht, hid⟩)

/-- The leaf is printed as the name. -/
inductive Names (s : Signature) : Term → String → Prop
  | var {id : Nat} (apart : ⟨variableText id, 0⟩ ∉ s.symbols) : Names s (.var id) (variableText id)
  | const {symbol : Nat} {name : String} (found : s.get? symbol = some ⟨name, 0⟩) :
      Names s (.const symbol) name

/-- The term is printed as the name followed by the characters. -/
inductive PrintedAs (ctx : Context) : Term → String → List Char → Prop
  | leaf {t : Term} {name : String} (names : Names ctx.signature t name) : PrintedAs ctx t name []
  | app {symbol : Nat} {args : List Term} {entry : Symbol} {texts : List String}
      (found : ctx.signature.get? symbol = some entry)
      (each : List.Forall₂ (fun t text => t.text ctx = .ok text) args texts) :
      PrintedAs ctx (.app symbol args) entry.name ('(' :: (commaSeparated texts).toList ++ [')'])

theorem printedAs_of_text (legible : t.IsLegible ctx.signature) {text : String}
    (ok : t.text ctx = .ok text) :
    ∃ name tail, PrintedAs ctx t name tail ∧ text.toList = name.toList ++ tail := by
  cases t with
  | var id =>
    obtain rfl := Except.ok.inj ok
    refine ⟨variableText id, [], .leaf (.var (legible.apart id ?_)), (List.append_nil _).symm⟩
    simp
  | const symbol =>
    obtain ⟨⟨name, arity⟩, found, rfl⟩ := Context.nameOf_eq_ok_iff.1 ok
    obtain ⟨entry, found', harity⟩ := Signature.declares_iff.1 legible.typed
    obtain rfl := Option.some.inj (found.symm.trans found')
    obtain rfl : arity = 0 := harity
    exact ⟨name, [], .leaf (.const found), (List.append_nil _).symm⟩
  | app symbol args =>
    obtain ⟨texts, entry, each, found, rfl⟩ := text_app_eq_ok_iff.1 ok
    exact ⟨entry.name, _, .app found each, by simp [applicationText]⟩

theorem Names.isName (named : s.IsNamed) (names : Names s t name) : IsName name := by
  cases names with
  | @var id _ => exact isName_variableText id
  | const found => exact named.isName _ (List.mem_of_getElem? found)

theorem Names.inj (named : s.IsNamed) (names : Names s t name) (names' : Names s t' name) :
    t = t' := by
  cases names with
  | @var id apart =>
    generalize htext : variableText id = name at names'
    cases names' with
    | @var id' _ => rw [variableText_injective htext]
    | const found => exact absurd (htext ▸ List.mem_of_getElem? found) apart
  | @const symbol _ found =>
    cases names' with
    | var apart => exact absurd (List.mem_of_getElem? found) apart
    | @const symbol' _ found' =>
      have hfind := (named.find?_name found).symm.trans (named.find?_name found')
      rw [Option.some.inj hfind]

theorem PrintedAs.isName (named : ctx.signature.IsNamed) {tail : List Char}
    (printed : PrintedAs ctx t name tail) : IsName name := by
  cases printed with
  | leaf names => exact names.isName named
  | app found _ => exact named.isName _ (List.mem_of_getElem? found)

theorem PrintedAs.endsName {tail r : List Char} (printed : PrintedAs ctx t name tail)
    (follows : Follows r) : EndsName (tail ++ r) := by
  cases printed with
  | leaf _ => exact follows.1
  | app _ _ =>
    intro c hc
    obtain rfl := Option.some.inj hc
    decide

theorem PrintedAs.exists_nameChar (named : ctx.signature.IsNamed) {tail : List Char}
    (printed : PrintedAs ctx t name tail) :
    ∃ c rest, name.toList ++ tail = c :: rest ∧ isNameChar c = true := by
  obtain ⟨hne, hchars⟩ := printed.isName named
  obtain ⟨c, rest, hname⟩ := List.exists_cons_of_ne_nil hne
  refine ⟨c, rest ++ tail, by rw [hname]; rfl, hchars c ?_⟩
  rw [hname]
  exact List.mem_cons_self

/-- The text of the term, followed by what cannot be a part of it, tells the term and where it
ends. -/
def IsDelimited (ctx : Context) (t : Term) : Prop :=
  ∀ ⦃t' : Term⦄ ⦃text text' : String⦄ ⦃r r' : List Char⦄, t'.IsLegible ctx.signature →
    t.text ctx = .ok text → t'.text ctx = .ok text' → Follows r → Follows r' →
    text.toList ++ r = text'.toList ++ r' → t = t' ∧ r = r'

/-- What stands behind an argument, given the texts of the arguments after it and what follows the
application. -/
def argsTail (texts : List String) (r : List Char) : List Char :=
  match texts with
  | [] => ')' :: r
  | texts => ',' :: ' ' :: ((commaSeparated texts).toList ++ ')' :: r)

theorem commaSeparated_cons_close (text : String) (texts : List String) (r : List Char) :
    (commaSeparated (text :: texts)).toList ++ ')' :: r = text.toList ++ argsTail texts r := by
  cases texts with
  | nil => rfl
  | cons text' texts =>
    rw [toList_commaSeparated_cons_cons, List.append_assoc]
    rfl

theorem follows_argsTail (texts : List String) (r : List Char) : Follows (argsTail texts r) := by
  cases texts with
  | nil => exact follows_sign isGap_nil (by decide) (by decide) (by decide)
  | cons => exact follows_sign isGap_nil (by decide) (by decide) (by decide)

/-- A text starts with a name, and not with the parenthesis behind arguments. -/
theorem close_ne_text (named : ctx.signature.IsNamed) (legible : t.IsLegible ctx.signature)
    {text : String} (ok : t.text ctx = .ok text) (r r' : List Char) :
    ')' :: r ≠ text.toList ++ r' := by
  obtain ⟨name, tail, printed, htext⟩ := printedAs_of_text legible ok
  obtain ⟨c, rest, hstart, hc⟩ := printed.exists_nameChar named
  rw [htext, hstart, List.cons_append, ne_eq, List.cons.injEq]
  rintro ⟨rfl, -⟩
  exact absurd hc (by decide)

theorem args_eq_of_commaSeparated (named : ctx.signature.IsNamed) {args args' : List Term}
    {texts texts' : List String} {r r' : List Char}
    (each : List.Forall₂ (fun t text => t.text ctx = .ok text) args texts)
    (each' : List.Forall₂ (fun t text => t.text ctx = .ok text) args' texts')
    (legible : ∀ t ∈ args, t.IsLegible ctx.signature ∧ t.IsDelimited ctx)
    (legible' : ∀ t ∈ args', t.IsLegible ctx.signature)
    (h : (commaSeparated texts).toList ++ ')' :: r = (commaSeparated texts').toList ++ ')' :: r') :
    args = args' ∧ r = r' := by
  induction each generalizing args' texts' with
  | nil =>
    cases each' with
    | nil => exact ⟨rfl, (List.cons.inj h).2⟩
    | cons first' _ =>
      rw [commaSeparated_cons_close] at h
      exact absurd h (close_ne_text named (legible' _ List.mem_cons_self) first' _ _)
  | @cons t text args texts first others ih =>
    cases each' with
    | nil =>
      rw [commaSeparated_cons_close] at h
      exact absurd h.symm (close_ne_text named (legible _ List.mem_cons_self).1 first _ _)
    | @cons t' text' args' texts' first' others' =>
      rw [commaSeparated_cons_close, commaSeparated_cons_close] at h
      obtain ⟨rfl, htails⟩ := (legible t List.mem_cons_self).2 (legible' t' List.mem_cons_self)
        first first' (follows_argsTail _ _) (follows_argsTail _ _) h
      -- the arguments end here in both texts or in none of them
      cases others with
      | nil =>
        cases others' with
        | nil => exact ⟨rfl, (List.cons.inj htails).2⟩
        | cons => cases htails
      | cons second others =>
        cases others' with
        | nil => cases htails
        | cons second' others' =>
          have hrest := (List.cons.inj (List.cons.inj htails).2).2
          obtain ⟨hargs, hr⟩ := ih (.cons second' others')
            (fun t ht => legible t (List.mem_cons_of_mem _ ht))
            (fun t ht => legible' t (List.mem_cons_of_mem _ ht)) hrest
          exact ⟨congrArg _ hargs, hr⟩

theorem isDelimited_of_args (named : ctx.signature.IsNamed) (legible : t.IsLegible ctx.signature)
    (delimited : ∀ symbol args, t = .app symbol args → ∀ a ∈ args, a.IsDelimited ctx) :
    t.IsDelimited ctx := by
  intro t' text text' r r' legible' ok ok' follows follows' h
  obtain ⟨name, tail, printed, htext⟩ := printedAs_of_text legible ok
  obtain ⟨name', tail', printed', htext'⟩ := printedAs_of_text legible' ok'
  rw [htext, htext', List.append_assoc, List.append_assoc] at h
  obtain ⟨rfl, htails⟩ := name_append_inj (printed.isName named) (printed'.isName named)
    (printed.endsName follows) (printed'.endsName follows') h
  cases printed with
  | leaf names =>
    cases printed' with
    | leaf names' => exact ⟨names.inj named names', htails⟩
    | app => exact absurd htails follows.ne_open
  | @app symbol args entry texts found each =>
    generalize hname : entry.name = name at printed'
    cases printed' with
    | leaf _ => exact absurd htails.symm follows'.ne_open
    | @app symbol' args' entry' texts' found' each' =>
      have hfind := named.find?_name found
      rw [hname, named.find?_name found'] at hfind
      obtain rfl := Option.some.inj hfind
      have hbody : (commaSeparated texts).toList ++ ')' :: r =
          (commaSeparated texts').toList ++ ')' :: r' := by
        simpa using htails
      obtain ⟨rfl, hr⟩ := args_eq_of_commaSeparated named each each'
        (fun a ha => ⟨legible.arg ha, delimited _ _ rfl a ha⟩) (fun a ha => legible'.arg ha) hbody
      exact ⟨rfl, hr⟩

theorem isDelimited (named : ctx.signature.IsNamed) (legible : t.IsLegible ctx.signature) :
    t.IsDelimited ctx := by
  induction t with
  | var id => exact isDelimited_of_args named legible nofun
  | const symbol => exact isDelimited_of_args named legible nofun
  | app symbol args ih =>
    refine isDelimited_of_args named legible fun _ _ heq a ha => ?_
    obtain ⟨-, rfl⟩ := Term.app.inj heq
    exact ih a ha (legible.arg ha)

theorem text_congr (same : ctx.signature = ctx'.signature) (t : Term) :
    t.text ctx = t.text ctx' := by
  have hname : ctx.nameOf = ctx'.nameOf := by
    funext symbol
    rw [Context.nameOf, Context.nameOf, same]
  induction t with
  | var id => rfl
  | const symbol => exact congrFun hname symbol
  | app symbol args ih =>
    have hargs : textArgs ctx args = textArgs ctx' args := by
      induction args with
      | nil => rfl
      | cons t args ihargs =>
        rw [textArgs, textArgs, ih t List.mem_cons_self,
          ihargs fun t ht => ih t (List.mem_cons_of_mem _ ht)]
    rw [text, text, hargs, hname]

end Term

namespace Equation

theorem text_congr (same : ctx.signature = ctx'.signature) : text ctx = text ctx' := by
  funext e
  rw [text, text, Term.text_congr same, Term.text_congr same]

structure IsLegible (s : Signature) (e : Equation) : Prop where
  typed : e.isTyped s = true
  apart : ∀ id ∈ e.vars, ⟨variableText id, 0⟩ ∉ s.symbols

theorem IsLegible.side {e : Equation} (legible : e.IsLegible s) (side : Side) :
    (e.side side).IsLegible s := by
  obtain ⟨hlhs, hrhs⟩ := Bool.and_eq_true_iff.1 legible.typed
  cases side with
  | lhs => exact ⟨hlhs, fun id hid => legible.apart id (mem_vars.2 (.inl hid))⟩
  | rhs => exact ⟨hrhs, fun id hid => legible.apart id (mem_vars.2 (.inr hid))⟩

theorem text_inj (named : ctx.signature.IsNamed) {e e' : Equation}
    (legible : e.IsLegible ctx.signature) (legible' : e'.IsLegible ctx.signature) {code : String}
    (ok : e.text ctx = .ok code) (ok' : e'.text ctx = .ok code) : e = e' := by
  obtain ⟨l, hl, ok⟩ := bind_eq_ok.1 ok
  obtain ⟨r, hr, ok⟩ := bind_eq_ok.1 ok
  obtain ⟨l', hl', ok'⟩ := bind_eq_ok.1 ok'
  obtain ⟨r', hr', ok'⟩ := bind_eq_ok.1 ok'
  have hcode := congrArg String.toList (Except.ok.inj (ok.trans ok'.symm))
  have hsides : l.toList ++ ' ' :: '=' :: ' ' :: r.toList =
      l'.toList ++ ' ' :: '=' :: ' ' :: r'.toList := by
    simpa [toList_equalityText] using hcode
  have hequality (rest : List Char) : Follows (' ' :: '=' :: rest) :=
    follows_sign isGap_blank (by decide) (by decide) (by decide)
  obtain ⟨hlhs, hrest⟩ := Term.isDelimited named (legible.side .lhs) (legible'.side .lhs) hl hl'
    (hequality _) (hequality _) hsides
  obtain ⟨hrhs, -⟩ := Term.isDelimited named (legible.side .rhs) (legible'.side .rhs) hr hr'
    (follows_gap isGap_nil) (follows_gap isGap_nil) (by simpa using hrest)
  exact (Equation.mk.injEq _ _ _ _).mpr ⟨hlhs, hrhs⟩

end Equation

/-! ### Kernels -/

namespace Kernel

variable {k k' : Kernel}

/-- The symbols have distinct names that can be read, the rules type check and are printed with
these names, their variables were collected, and no constant has a name like a variable of a rule is
printed. -/
structure IsLegible (k : Kernel) : Prop where
  named : k.ctx.signature.IsNamed
  own : ∀ rule ∈ k.rules, rule.statement.ctx.signature = k.ctx.signature
  typed : ∀ rule ∈ k.rules, rule.statement.equation.isTyped k.ctx.signature = true
  collected : ∀ rule ∈ k.rules, ∃ ids, rule.statement.freeIds = .ok ids
  apart : ∀ rule ∈ k.rules, ∀ id ∈ rule.statement.equation.vars,
    ⟨variableText id, 0⟩ ∉ k.ctx.signature.symbols

theorem IsLegible.equation (legible : k.IsLegible) :
    ∀ e ∈ k.equations, e.IsLegible k.ctx.signature := by
  intro e he
  obtain ⟨rule, hrule, rfl⟩ := List.mem_map.1 he
  rw [Rule.equation_eq]
  exact ⟨legible.typed rule hrule, legible.apart rule hrule⟩

theorem fingerprint_eq_ok_iff
    (own : ∀ rule ∈ k.rules, rule.statement.ctx.signature = k.ctx.signature)
    (collected : ∀ rule ∈ k.rules, ∃ ids, rule.statement.freeIds = .ok ids)
    {symbols : List Symbol} {texts : List String} :
    k.fingerprint = .ok (symbols, texts) ↔ k.ctx.signature.symbols = symbols ∧
      List.Forall₂ (fun e text => e.text k.ctx = .ok text) k.equations texts := by
  have hrule : ∀ rule ∈ k.rules, ∀ text,
      rule.statement.text = .ok text ↔ rule.equation.text k.ctx = .ok text := by
    intro rule hrule text
    obtain ⟨ids, hids⟩ := collected rule hrule
    have denotes := Statement.denotes_of_freeIds hids
    rw [denotes.text_eq_ok_iff, Equation.text_congr (own rule hrule), rule.equation_eq]
    exact and_iff_right (Statement.fitRows_of_freeIds hids)
  have htexts : (k.rules.mapM fun rule => rule.statement.text) = .ok texts ↔
      List.Forall₂ (fun e text => e.text k.ctx = .ok text) k.equations texts := by
    rw [equations, List.forall₂_map_left_iff, mapM_eq_ok_iff]
    constructor
    · exact fun each => forall₂_of_mem each fun rule hmem text => (hrule rule hmem text).1
    · exact fun each => forall₂_of_mem each fun rule hmem text => (hrule rule hmem text).2
  rw [fingerprint, bind_eq_ok, ← htexts]
  constructor
  · rintro ⟨_, ok, hcode⟩
    obtain ⟨hsymbols, rfl⟩ := Prod.mk.inj (Except.ok.inj hcode)
    exact ⟨hsymbols, ok⟩
  · rintro ⟨rfl, ok⟩
    exact ⟨texts, ok, rfl⟩

theorem IsLegible.fingerprint_eq_ok_iff (legible : k.IsLegible) {symbols : List Symbol}
    {texts : List String} :
    k.fingerprint = .ok (symbols, texts) ↔ k.ctx.signature.symbols = symbols ∧
      List.Forall₂ (fun e text => e.text k.ctx = .ok text) k.equations texts :=
  Kernel.fingerprint_eq_ok_iff legible.own legible.collected

theorem IsLegible.exists_fingerprint (legible : k.IsLegible) :
    ∃ code, k.fingerprint = .ok code := by
  obtain ⟨texts, htexts⟩ := exists_mapM_eq_ok fun e he =>
    Equation.exists_text_of_isTyped (legible.equation e he).typed
  exact ⟨_, legible.fingerprint_eq_ok_iff.2 ⟨rfl, mapM_eq_ok_iff.1 htexts⟩⟩

theorem equations_eq_of_fingerprint (legible : k.IsLegible) (legible' : k'.IsLegible)
    (h : k.fingerprint = k'.fingerprint) :
    k.ctx.signature = k'.ctx.signature ∧ k.equations = k'.equations := by
  obtain ⟨⟨symbols, texts⟩, ok⟩ := legible.exists_fingerprint
  obtain ⟨hsymbols, each⟩ := legible.fingerprint_eq_ok_iff.1 ok
  obtain ⟨hsymbols', each'⟩ := legible'.fingerprint_eq_ok_iff.1 (h ▸ ok)
  have same : k.ctx.signature = k'.ctx.signature :=
    congrArg Signature.mk (hsymbols.trans hsymbols'.symm)
  refine ⟨same, ?_⟩
  rw [← Equation.text_congr same] at each'
  have unique : Relator.LeftUnique fun (e : Equation) (text : String) =>
      e.IsLegible k.ctx.signature ∧ e.text k.ctx = .ok text :=
    fun _ _ _ h h' => Equation.text_inj legible.named h.1 h'.1 h.2 h'.2
  refine List.left_unique_forall₂' unique
    (forall₂_of_mem each fun e he text ok => ⟨legible.equation e he, ok⟩)
    (forall₂_of_mem each' fun e he text ok => ⟨?_, ok⟩)
  rw [same]
  exact legible'.equation e he

theorem ctx_refreshed (k : Kernel) : k.refreshed.ctx = k.ctx := rfl

theorem History.built_ctx {start : Kernel} {log : List Event} {options : KernelOptions}
    (built : ctx.Built) (read : Kernel.read ctx options = .ok start)
    (history : start.History log k) : k.ctx.Built := by
  induction history with
  | new => exact (of_read_ok read).1.1 ▸ built
  | @add _ k k' theorems _ _ labelled run ih =>
    have houtcome := outcome_add theorems k
    rw [run] at houtcome
    cases houtcome with
    | refused _ => exact ih
    | stuck ok _ => exact (of_extended_ok labelled ok).2 ▸ ih
    | done ok rebuilt =>
      rw [(of_rebuilt_ok rebuilt).1, ctx_refreshed, (of_extended_ok labelled ok).2]
      exact ih
  | @remove _ k k' handle _ _ run ih =>
    have houtcome := outcome_remove handle k
    rw [run] at houtcome
    cases houtcome with
    | refused _ => exact ih
    | stuck ok _ => exact (reduced_eq_ok_iff.1 ok).2 ▸ ih
    | done ok rebuilt =>
      rw [(of_rebuilt_ok rebuilt).1, ctx_refreshed, (reduced_eq_ok_iff.1 ok).2]
      exact ih
  | @define _ k k' label name arity _ earlier run ih =>
    have hredefined : ∀ k₁, k.redefined label name arity = .ok k₁ → k₁.ctx.Built := by
      intro k₁ ok
      rcases redefined_cases (earlier.agrees read).homed label name arity with
        ⟨-, herror⟩ | ⟨_, -, herror⟩ | ⟨larger, hlarger, hok⟩
      · cases herror.symm.trans ok
      · cases herror.symm.trans ok
      · obtain rfl := Except.ok.inj (ok.symm.trans hok)
        exact ih.withSymbol hlarger
    have houtcome := outcome_define label name arity k
    rw [run] at houtcome
    cases houtcome with
    | refused _ => exact ih
    | stuck ok _ => exact hredefined _ ok
    | done ok rebuilt =>
      rw [(of_rebuilt_ok rebuilt).1, ctx_refreshed]
      exact hredefined _ ok
  | reseed _ _ ih => exact ih

/-- After any history in a context that was built, if the live batches can be put to use, the names
of constants are all that matters. -/
theorem History.isLegible_iff {start : Kernel} {log : List Event} {options : KernelOptions}
    (built : ctx.Built) (read : Kernel.read ctx options = .ok start)
    (history : start.History log k)
    (usable : ∀ b ∈ Event.live log, ∀ s ∈ b.theorems, s.IsUsable) :
    k.IsLegible ↔ ∀ rule ∈ k.rules, ∀ id ∈ rule.statement.equation.vars,
      ⟨variableText id, 0⟩ ∉ k.ctx.signature.symbols := by
  have agrees := history.agrees read
  have hctx := history.built_ctx built read
  obtain ⟨-, own, current⟩ := history.refreshed_eq read usable
  have hmem : ∀ rule ∈ k.rules, rule.statement ∈ k.statements := fun rule hrule =>
    map_rules_of_refreshed current ▸ List.mem_map_of_mem hrule
  constructor
  · exact fun legible => legible.apart
  · intro apart
    refine ⟨hctx.draft.1, fun rule hrule => by rw [agrees.homed _ (hmem rule hrule)], ?_, ?_, apart⟩
    · intro rule hrule
      have typed := agrees.typed _ (hmem rule hrule)
      exact ((Statement.denotes_of_isTyped typed).isTyped_eq_ok_iff.1 typed).2
    · exact fun rule hrule => (own _ (hmem rule hrule)).collected

/-- **Fingerprints and answers.** Every legible kernel has a fingerprint. Two of them have the same
one just if they have the same symbols and the same rules, and then each question has the same
answer in both. -/
theorem fingerprint_eq_iff_of_legible (legible : k.IsLegible) (legible' : k'.IsLegible) :
    (∃ code, k.fingerprint = .ok code) ∧
    (k.fingerprint = k'.fingerprint ↔
      k.ctx.signature = k'.ctx.signature ∧ k.equations = k'.equations) ∧
    (k.fingerprint = k'.fingerprint → k.AnswersLike k') := by
  refine ⟨legible.exists_fingerprint, ⟨equations_eq_of_fingerprint legible legible', ?_⟩, ?_⟩
  · rintro ⟨same, hequations⟩
    obtain ⟨⟨symbols, texts⟩, ok⟩ := legible.exists_fingerprint
    obtain ⟨rfl, each⟩ := legible.fingerprint_eq_ok_iff.1 ok
    rw [Equation.text_congr same, hequations] at each
    rw [ok, same]
    exact (legible'.fingerprint_eq_ok_iff.2 ⟨rfl, each⟩).symm
  · intro h
    exact answersLike_of_equations (equations_eq_of_fingerprint legible legible' h).2

end Kernel

/-! ### The same rule in two contexts -/

/-- The context of an involution with other names in its axiom. -/
def Context.involutionRenamed : Context :=
  { Context.involution with axioms := ["i(i(y)) = y"], label := 1 }

def Kernel.involutionRenamed : Kernel :=
  { Kernel.involution {} with
    ctx := .involutionRenamed
    axioms := [.ofEquation .involutionRenamed Statement.involution.equation]
    rules := [.ofStatement (.ofEquation .involutionRenamed Statement.involution.equation)] }

theorem Kernel.fingerprint_eq_iff_of_legible_involution :
    Kernel.read .involution {} = .ok (.involution {}) ∧
      Kernel.read .involutionRenamed {} = .ok .involutionRenamed ∧
      (Kernel.involution {}).fingerprint = Kernel.involutionRenamed.fingerprint ∧
      (Kernel.involution {}).AnswersLike .involutionRenamed := by
  have hread : Kernel.read .involutionRenamed {} = .ok .involutionRenamed :=
    read_eq_ok {} (by decide +kernel) (by decide +kernel) (by decide +kernel)
  have hbuilt : Context.involutionRenamed.Built :=
    ⟨_, 1, Draft.written_involution "i(i(y)) = y", rfl⟩
  -- the only symbol is no constant
  have hapart (id : Nat) : ⟨variableText id, 0⟩ ∉ [Symbol.mk "i" 1] := by simp
  have hnone : ∀ b ∈ Event.live [], ∀ s ∈ b.theorems, s.IsUsable := fun b hb =>
    absurd hb List.not_mem_nil
  have hlegible : (Kernel.involution {}).IsLegible :=
    (History.isLegible_iff Context.built_involution (read_involution {}) .new hnone).2
      fun _ _ id _ => hapart id
  have hlegible' : Kernel.involutionRenamed.IsLegible :=
    (History.isLegible_iff hbuilt hread .new hnone).2 fun _ _ id _ => hapart id
  obtain ⟨-, hsame, hanswers⟩ := fingerprint_eq_iff_of_legible hlegible hlegible'
  have hfingerprint := hsame.2 ⟨rfl, by decide +kernel⟩
  exact ⟨read_involution {}, hread, hfingerprint, hanswers hfingerprint⟩

/-! ### A constant that is named like a variable -/

/-- A unit, a constant with the name of the first variable as it is printed, and inverses. -/
def Context.crossed (law : String) (label : Nat) : Context :=
  { name := "crossed", signature := ⟨[⟨"e", 0⟩, ⟨"x0", 0⟩, ⟨"i", 1⟩]⟩, axioms := [law], label }

def Kernel.crossed (law : String) (label : Nat) (rule : Equation) (bound : Nat) : Kernel :=
  { ctx := .crossed law label
    options := {}
    axioms := [.ofEquation (.crossed law label) rule]
    rules := [.ofStatement (.ofEquation (.crossed law label) rule)]
    bound
    rng := ⟨0⟩ }

theorem Context.built_crossed (law : String) (label : Nat) : (Context.crossed law label).Built := by
  have hunit : Draft.define { name := "crossed" } "e" 0 =
      .ok { name := "crossed", signature := ⟨[⟨"e", 0⟩]⟩ } := by decide +kernel
  have hconst : Draft.define { name := "crossed", signature := ⟨[⟨"e", 0⟩]⟩ } "x0" 0 =
      .ok { name := "crossed", signature := ⟨[⟨"e", 0⟩, ⟨"x0", 0⟩]⟩ } := by decide +kernel
  have hinverse :
      Draft.define { name := "crossed", signature := ⟨[⟨"e", 0⟩, ⟨"x0", 0⟩]⟩ } "i" 1 =
        .ok { name := "crossed", signature := ⟨[⟨"e", 0⟩, ⟨"x0", 0⟩, ⟨"i", 1⟩]⟩ } := by
    decide +kernel
  have hwritten := (((Draft.Written.new "crossed").define hunit).define hconst).define hinverse
  exact ⟨_, label, hwritten.addAxiom law, rfl⟩

/-- One kernel knows the inverse of the constant only and the other one knows all inverses. Their
fingerprints are the same, and they disagree about the inverse of the unit. -/
theorem Kernel.fingerprints_clash :
    ∃ k k' code, Kernel.read (.crossed "i(x0) = e" 0) {} = .ok k ∧
      Kernel.read (.crossed "i(y) = e" 1) {} = .ok k' ∧
      (Context.crossed "i(x0) = e" 0).Built ∧ (Context.crossed "i(y) = e" 1).Built ∧
      k.fingerprint = .ok code ∧ k'.fingerprint = .ok code ∧
      k.isTrivial ⟨.app 2 [.const 0], .const 0⟩ = false ∧
      k'.isTrivial ⟨.app 2 [.const 0], .const 0⟩ = true := by
  refine ⟨.crossed "i(x0) = e" 0 ⟨.app 2 [.const 1], .const 0⟩ 0,
    .crossed "i(y) = e" 1 ⟨.app 2 [.var 0], .const 0⟩ 1,
    ([⟨"e", 0⟩, ⟨"x0", 0⟩, ⟨"i", 1⟩], ["i(x0) = e"]),
    read_eq_ok {} (by decide +kernel) (by decide +kernel) (by decide +kernel),
    read_eq_ok {} (by decide +kernel) (by decide +kernel) (by decide +kernel),
    Context.built_crossed _ _, Context.built_crossed _ _, ?_⟩
  decide +kernel

end Equational
