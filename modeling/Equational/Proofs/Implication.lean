import Equational.Proofs.Equivalence
import Equational.Proofs.Kernel
import Equational.Proofs.Simultaneity

/-!
# Implication is the instance preorder

An equation implies its instances, in both orientations. Substitutions compose and so do
orientations, so implication is reflexive and transitive (`Equation.implies_trans`). Two equations
that imply each other are equivalent (`Equation.equivalent_iff_implies`): going from the first to
the second and back, twice, comes back in the first orientation and leaves every variable alone, so
on the way each variable went to a variable and no two to the same one.
-/

namespace Equational

theorem Term.eq_var_of_bind_eq_var {t : Term} {f : Nat → Term} {id : Nat}
    (h : t.bind f = .var id) : ∃ i, t = .var i := by
  cases t with
  | var i => exact ⟨i, rfl⟩
  | const symbol => cases h
  | app symbol args =>
    rw [bind_app] at h
    cases h

namespace Equation

variable {a b c : Equation} {σ τ : Nat → Term}

theorem bind_transpose (a : Equation) (σ : Nat → Term) :
    a.transpose.bind σ = (a.bind σ).transpose := rfl

theorem bind_var (a : Equation) : a.bind .var = a := bind_eq_self fun _ _ => rfl

theorem eq_var_of_bind_eq_self (h : a.bind σ = a) {id : Nat} (hid : id ∈ a.vars) :
    σ id = .var id := by
  have hsides : a.lhs.bind σ = a.lhs.bind .var ∧ a.rhs.bind σ = a.rhs.bind .var := by
    rw [Term.bind_id, Term.bind_id]
    exact ⟨congrArg lhs h, congrArg rhs h⟩
  rcases mem_vars.1 hid with hid | hid
  · exact Term.bind_eq_bind_iff.1 hsides.1 id hid
  · exact Term.bind_eq_bind_iff.1 hsides.2 id hid

/-! ### Instances in both orientations -/

/-- The substitution turns the first equation into the second one or its transpose. -/
def Turns (σ : Nat → Term) (a b : Equation) : Prop := a.bind σ = b ∨ a.bind σ = b.transpose

theorem Turns.refl (a : Equation) : Turns .var a a := .inl a.bind_var

theorem Turns.trans (first : Turns σ a b) (second : Turns τ b c) :
    Turns (fun id => (σ id).bind τ) a c := by
  rw [Turns, ← bind_bind]
  rcases first with hab | hab <;> rcases second with hbc | hbc
  · exact .inl (by rw [hab, hbc])
  · exact .inr (by rw [hab, hbc])
  · exact .inr (by rw [hab, bind_transpose, hbc])
  · exact .inl (by rw [hab, bind_transpose, hbc, transpose_transpose])

/-- Turning an equation into itself twice brings back its first orientation. -/
theorem Turns.bind_twice (h : Turns σ a a) : a.bind (fun id => (σ id).bind σ) = a := by
  rw [← bind_bind]
  rcases h with h | h
  · rw [h, h]
  · rw [h, bind_transpose, h, transpose_transpose]

/-- A substitution that can be taken back is a renaming, whichever way the sides went. -/
theorem Turns.exists_rename (there : Turns σ a b) (back : Turns τ b a) :
    ∃ ρ, Set.InjOn ρ {id | id ∈ a.vars} ∧ ∀ id ∈ a.vars, σ id = .var (ρ id) := by
  let round : Nat → Term := fun id => (σ id).bind τ
  have hround : ∀ id ∈ a.vars, ((σ id).bind τ).bind round = .var id :=
    fun id hid => eq_var_of_bind_eq_self (there.trans back).bind_twice hid
  have hvar : ∀ id ∈ a.vars, ∃ i, σ id = .var i := by
    intro id hid
    have hid := hround id hid
    rw [Term.bind_bind] at hid
    exact Term.eq_var_of_bind_eq_var hid
  choose! ρ hρ using hvar
  refine ⟨ρ, fun i hi j hj heq => ?_, hρ⟩
  have hi' := hround i hi
  rw [hρ i hi, show ρ i = ρ j from heq, ← hρ j hj, hround j hj] at hi'
  exact (Term.var.inj hi').symm

/-! ### The preorder -/

theorem implies_iff_turns : a.implies b = true ↔ ∃ σ, Turns σ a b := implies_iff

theorem implies_refl (a : Equation) : a.implies a = true := implies_iff_turns.2 ⟨_, .refl a⟩

theorem implies_trans (hab : a.implies b = true) (hbc : b.implies c = true) :
    a.implies c = true := by
  obtain ⟨σ, hσ⟩ := implies_iff_turns.1 hab
  obtain ⟨τ, hτ⟩ := implies_iff_turns.1 hbc
  exact implies_iff_turns.2 ⟨_, hσ.trans hτ⟩

theorem implies_of_equivalent (h : a.equivalent b = true) : a.implies b = true := by
  obtain ⟨ρ, -, hρ⟩ := equivalent_iff.1 h
  exact implies_iff_turns.2 ⟨_, hρ⟩

/-- **Equations are equivalent if and only if they imply each other.** -/
theorem equivalent_iff_implies :
    a.equivalent b = true ↔ a.implies b = true ∧ b.implies a = true := by
  constructor
  · intro h
    exact ⟨implies_of_equivalent h, implies_of_equivalent (equivalent_symm h)⟩
  · rintro ⟨hab, hba⟩
    obtain ⟨σ, hσ⟩ := implies_iff_turns.1 hab
    obtain ⟨τ, hτ⟩ := implies_iff_turns.1 hba
    obtain ⟨ρ, hinj, hρ⟩ := hσ.exists_rename hτ
    have hrename : a.rename ρ = a.bind σ := bind_congr fun id hid => (hρ id hid).symm
    refine equivalent_iff.2 ⟨ρ, hinj, ?_⟩
    rw [hrename]
    exact hσ

end Equation

theorem Kernel.isTrivial_bind {k : Kernel} {e : Equation} (h : k.isTrivial e = true)
    (σ : Nat → Term) : k.isTrivial (e.bind σ) = true := by
  rcases isTrivial_iff.1 h with hsame | ⟨rule, hrule, τ, hτ⟩
  · exact isTrivial_iff.2 (.inl (congrArg (Term.bind σ) hsame))
  · exact isTrivial_iff.2 (.inr ⟨rule, hrule, _, Equation.Turns.trans hτ (.inl rfl)⟩)

/-! ### Statements -/

/-- The row with a value for each of the ids. -/
def DenseMap.tabulate {β : Type} (ids : List Nat) (value : Nat → β) : DenseMap β :=
  ids.foldr (fun id m => m.bound id (value id)) .empty

theorem DenseMap.lookup_tabulate {β : Type} {ids : List Nat} (value : Nat → β) {id : Nat}
    (hid : id ∈ ids) : (tabulate ids value).lookup id = some (value id) := by
  induction ids with
  | nil => cases hid
  | cons first ids ih =>
    rw [tabulate, List.foldr_cons, lookup_bound]
    split
    next heq => rw [heq]
    next hne => exact ih ((List.mem_cons.1 hid).resolve_left hne)

namespace Statement

open DenseMap (IsNarrow)

variable {a b s s' : Statement} {e e' : Equation} {images : DenseMap Expression}

/-! #### Matching both sides -/

theorem both_matchesTo (hs : s.Denotes e) {lhs rhs : Expression} {l r : Term} (hl : lhs.Denotes l)
    (hr : rhs.Denotes r) :
    (IsNarrow e.vars → ∃ answer, s.matchesTo lhs rhs = .ok answer) ∧
    ∀ answer, s.matchesTo lhs rhs = .ok answer → answer = (e.matches? ⟨l, r⟩).isSome := by
  let c := Expression.matchingComparison (fun _ => True) .empty e.vars
  have hleft : c.Agrees .empty (e.lhs.matchInto l (Expression.terms .empty))
      (s.lhs.matchInto lhs .empty) :=
    Expression.agrees_matchInto trivial hs.lhs hl
      (fun id hid => Equation.mem_vars.2 (.inl hid)) .empty
  have hright : ∀ m, c.Agrees m (e.rhs.matchInto r (Expression.terms m))
      (s.rhs.matchInto rhs m) := fun m =>
    Expression.agrees_matchInto trivial hs.rhs hr (fun id hid => Equation.mem_vars.2 (.inr hid)) m
  have hboth := hleft.both hright
  have hrun : s.matchesTo lhs rhs = (s.lhs.matchInto lhs .empty >>= fun p =>
      if p.1 then Prod.fst <$> s.rhs.matchInto rhs p.2 else pure false) := by
    rw [matchesTo]
    refine congrArg (_ >>= ·) (funext fun p => ?_)
    obtain ⟨matched, bound⟩ := p
    cases matched with
    | false => rfl
    | true =>
      show (s.rhs.matchInto rhs bound >>= _) = Prod.fst <$> s.rhs.matchInto rhs bound
      cases s.rhs.matchInto rhs bound with
      | error cause => rfl
      | ok q => rfl
  have hideal : (e.lhs.matchInto l (Expression.terms .empty)).bind (e.rhs.matchInto r) =
      e.matches? ⟨l, r⟩ := by
    rw [Equation.matches?, show Expression.terms .empty = .empty from rfl]
    cases e.lhs.matchInto l .empty with
    | none => rfl
    | some found => rfl
  rw [hrun, ← hideal]
  exact ⟨fun narrow => hboth.1 (DenseMap.hasRoom_empty narrow),
    hboth.2 (Expression.continues_empty _ _)⟩

theorem Denotes.of_implies (hs : s.Denotes e) (hs' : s'.Denotes e') {answer : Bool}
    (ok : s.implies s' = .ok answer) : answer = e.implies e' := by
  obtain ⟨first, hfirst, ok⟩ := bind_eq_ok.1 ok
  have hright := (both_matchesTo hs hs'.lhs hs'.rhs).2 first hfirst
  rw [Equation.implies, ← show first = (e.matches? e').isSome from hright]
  cases first with
  | true => exact (Except.ok.inj ok).symm
  | false => exact (both_matchesTo hs hs'.rhs hs'.lhs).2 answer ok

/-- **Implication is decided**, if the variables of the first statement are near to each other. -/
theorem Denotes.implies_eq (hs : s.Denotes e) (hs' : s'.Denotes e') (narrow : IsNarrow e.vars) :
    s.implies s' = .ok (e.implies e') := by
  obtain ⟨first, hfirst⟩ := (both_matchesTo hs hs'.lhs hs'.rhs).1 narrow
  obtain ⟨second, hsecond⟩ := (both_matchesTo hs hs'.rhs hs'.lhs).1 narrow
  have hrun : ∃ answer, s.implies s' = .ok answer := by
    rw [implies, hfirst, ok_bind]
    cases first with
    | true => exact ⟨true, rfl⟩
    | false => exact ⟨second, hsecond⟩
  obtain ⟨answer, ok⟩ := hrun
  rw [ok, hs.of_implies hs' ok]

theorem Denotes.of_findsTrivial (hs : s.Denotes e) {k : Kernel}
    (rules : ∀ rule ∈ k.rules, rule.statement.Denotes rule.equation) {answer : Bool}
    (ok : k.findsTrivial s = .ok answer) : answer = k.isTrivial e := by
  have hreflexive : s.isReflexive = e.isReflexive := by rw [isReflexive, hs.equation_eq]
  rw [Kernel.findsTrivial, hreflexive] at ok
  rw [Kernel.isTrivial, Equation.isTrivialIn]
  cases hsame : e.isReflexive with
  | true =>
    rw [hsame] at ok
    exact (Except.ok.inj ok).symm
  | false =>
    rw [hsame] at ok
    replace ok : k.rules.anyM (fun rule => rule.statement.implies s) = .ok answer := ok
    rw [Bool.false_or]
    generalize k.rules = list at rules ok
    induction list with
    | nil => exact (Except.ok.inj ok).symm
    | cons rule list ih =>
      rw [List.anyM] at ok
      obtain ⟨first, hfirst, ok⟩ := bind_eq_ok.1 ok
      rw [List.any_cons, ← (rules rule List.mem_cons_self).of_implies hs hfirst]
      cases first with
      | true => exact (Except.ok.inj ok).symm
      | false => exact ih (fun rule hrule => rules rule (List.mem_cons_of_mem _ hrule)) ok

theorem Denotes.findsTrivial_eq (hs : s.Denotes e) {k : Kernel}
    (rules : ∀ rule ∈ k.rules, rule.statement.Denotes rule.equation)
    (narrow : ∀ rule ∈ k.rules, IsNarrow rule.equation.vars) :
    k.findsTrivial s = .ok (k.isTrivial e) := by
  have hreflexive : s.isReflexive = e.isReflexive := by rw [isReflexive, hs.equation_eq]
  rw [Kernel.findsTrivial, hreflexive, Kernel.isTrivial, Equation.isTrivialIn]
  cases e.isReflexive with
  | true => rfl
  | false =>
    show k.rules.anyM _ = _
    rw [Bool.false_or]
    generalize k.rules = list at rules narrow
    induction list with
    | nil => rfl
    | cons rule list ih =>
      have himplies := (rules rule List.mem_cons_self).implies_eq hs
        (narrow rule List.mem_cons_self)
      rw [List.anyM, himplies, List.any_cons, ok_bind]
      cases rule.equation.implies e with
      | true => rfl
      | false =>
        exact ih (fun rule hrule => rules rule (List.mem_cons_of_mem _ hrule))
          fun rule hrule => narrow rule (List.mem_cons_of_mem _ hrule)

/-! #### Replacing variables on both sides -/

/-- What the variables of the statement are bound to has no circles. -/
def Admits (s : Statement) (images : DenseMap Expression) : Prop :=
  s.lhs.Admits images ∧ s.rhs.Admits images

theorem denotes_of_mapFree (hs : s.IsAcyclic) (admits : s.Admits images)
    (ok : s.mapFree images = .ok s') :
    s'.Denotes (s.equation.subst (Expression.terms images)) := by
  obtain ⟨lhs, hlhs, ok⟩ := bind_eq_ok.1 ok
  obtain ⟨rhs, hrhs, ok⟩ := bind_eq_ok.1 ok
  obtain ⟨_, -, ok⟩ := bind_eq_ok.1 ok
  obtain ⟨-, rfl⟩ := Expression.mapFree_eq_ok_iff.1 hlhs
  obtain ⟨-, rfl⟩ := Expression.mapFree_eq_ok_iff.1 hrhs
  obtain rfl := Except.ok.inj ok
  have hleft := (Expression.denotes_term hs.1).substituted_lookup fun id hid image himage =>
    Expression.denotes_term (admits.1 id hid image himage)
  have hright := (Expression.denotes_term hs.2).substituted_lookup fun id hid image himage =>
    Expression.denotes_term (admits.2 id hid image himage)
  exact ⟨hleft, hright⟩

/-- Both sides can be laid out anew. -/
def IsPlain (s : Statement) : Prop := s.lhs.IsPlain ∧ s.rhs.IsPlain

theorem same_ctx_substituted {e : Expression} {ctx : Context} (he : e.ctx = ctx)
    (homed : ∀ id ∈ e.term.vars, ∀ image, images.lookup id = some image →
      image.ctx.same ctx = true) :
    (e.substituted images.lookup).ctx.label = ctx.label := by
  rcases e.ctx_substituted_cases images.lookup with h | ⟨id, hroot, hid⟩
  · rw [h, he]
  · refine beq_iff_eq.1 (homed id ?_ _ hid)
    rw [Expression.term, TermGraph.term, TermGraph.termAt, hroot, TermGraph.unfold_free]
    exact Term.mem_vars_var.2 rfl

theorem exists_mapFree (plain : s.IsPlain)
    (homed : ∀ id ∈ s.equation.vars, ∀ image, images.lookup id = some image →
      image.ctx.same s.ctx = true) : ∃ s', s.mapFree images = .ok s' := by
  have hleft := same_ctx_substituted (e := s.lhs) rfl fun id hid =>
    homed id (Equation.mem_vars.2 (.inl hid))
  have hright := same_ctx_substituted (e := s.rhs) rfl fun id hid =>
    homed id (Equation.mem_vars.2 (.inr hid))
  have hsame : (s.lhs.substituted images.lookup).ctx.same (s.rhs.substituted images.lookup).ctx =
      true := beq_iff_eq.2 (hleft.trans hright.symm)
  have hcan : ∀ e : Expression, e.IsPlain →
      e.mapFree images = .ok (e.substituted images.lookup) := fun e plain =>
    Expression.mapFree_eq_ok_iff.2 ⟨fun _ => ⟨plain.toFits, fun _ _ _ => plain.covered⟩, rfl⟩
  exact ⟨_, bind_eq_ok.2 ⟨_, hcan s.lhs plain.1, bind_eq_ok.2 ⟨_, hcan s.rhs plain.2,
    bind_eq_ok.2 ⟨(), require_eq_ok.2 hsame, rfl⟩⟩⟩⟩

/-- A statement implies what it can be turned into by replacing variables, and nothing else. -/
theorem exists_turns_iff_mapFree (ha : a.IsAcyclic) (plain : a.IsPlain) :
    (∃ σ, a.equation.bind σ = b.equation ∨ a.equation.bind σ = b.equation.transpose) ↔
      ∃ images s, a.Admits images ∧ a.mapFree images = .ok s ∧
        (s.identical b = true ∨ s.identical b.transpose = true) := by
  constructor
  · rintro ⟨σ, hσ⟩
    let images : DenseMap Expression := .tabulate a.equation.vars fun id => .ofTerm a.ctx (σ id)
    have hlookup : ∀ id ∈ a.equation.vars, images.lookup id = some (.ofTerm a.ctx (σ id)) :=
      fun id hid => DenseMap.lookup_tabulate _ hid
    have hacyclic : ∀ id ∈ a.equation.vars, ∀ image, images.lookup id = some image →
        image.graph.IsAcyclic := by
      intro id hid image himage
      obtain rfl := Option.some.inj ((hlookup id hid).symm.trans himage)
      exact TermGraph.isAcyclic_ofTerm (σ id)
    have hadmits : a.Admits images :=
      ⟨fun id hid => hacyclic id (Equation.mem_vars.2 (.inl hid)),
        fun id hid => hacyclic id (Equation.mem_vars.2 (.inr hid))⟩
    have hhomed : ∀ id ∈ a.equation.vars, ∀ image, images.lookup id = some image →
        image.ctx.same a.ctx = true := by
      intro id hid image himage
      obtain rfl := Option.some.inj ((hlookup id hid).symm.trans himage)
      exact Kernel.same_self a.ctx
    obtain ⟨s, hs⟩ := exists_mapFree plain hhomed
    have hequation : s.equation = a.equation.bind σ := by
      rw [(denotes_of_mapFree ha hadmits hs).equation_eq]
      refine Equation.bind_congr fun id hid => ?_
      rw [Expression.image_terms, hlookup id hid]
      exact TermGraph.term_ofTerm (σ id)
    refine ⟨images, s, hadmits, hs, ?_⟩
    rw [identical, identical, beq_iff_eq, beq_iff_eq, hequation]
    exact hσ
  · rintro ⟨images, s, hadmits, hs, hsame⟩
    rw [identical, identical, beq_iff_eq, beq_iff_eq,
      (denotes_of_mapFree ha hadmits hs).equation_eq] at hsame
    exact ⟨_, hsame⟩

/-- **Implication is the instance preorder.** Let no records of the statements lead in a circle.
Whenever it is answered whether a statement implies another one, it does if and only if one
substitution, applied to both sides, gives the other one or its transpose. If the variables of the
first one are near to each other then there is an answer, implication is reflexive and transitive,
and a statement implies what it can be turned into by replacing variables, as far as its records
have arguments. Statements that imply each other are the equivalent ones. So what is trivial stays
trivial when variables are replaced, which succeeds with expressions of the statement's own
context. -/
theorem implies_instance_preorder (a b c : Statement) (ha : a.IsAcyclic) (hb : b.IsAcyclic)
    (hc : c.IsAcyclic) :
    (∀ answer, a.implies b = .ok answer → (answer = true ↔ ∃ σ : Nat → Term,
      a.equation.bind σ = b.equation ∨ a.equation.bind σ = b.equation.transpose)) ∧
    (IsNarrow a.equation.vars →
      (∃ answer, a.implies b = .ok answer) ∧ a.implies a = .ok true ∧
      (a.implies b = .ok true → b.implies c = .ok true → a.implies c = .ok true) ∧
      (a.IsPlain → (a.implies b = .ok true ↔ ∃ images s, a.Admits images ∧
        a.mapFree images = .ok s ∧ (s.identical b = true ∨ s.identical b.transpose = true))) ∧
      (IsNarrow b.equation.vars →
        (a.implies b = .ok true ∧ b.implies a = .ok true ↔ a.equivalent b = .ok true))) ∧
    ∀ (k : Kernel) (images : DenseMap Expression),
      (∀ rule ∈ k.rules, rule.statement.IsAcyclic) → a.Admits images →
      k.findsTrivial a = .ok true →
        (∀ s, a.mapFree images = .ok s →
          (∀ answer, k.findsTrivial s = .ok answer → answer = true) ∧
          ((∀ rule ∈ k.rules, IsNarrow rule.equation.vars) → k.findsTrivial s = .ok true)) ∧
        (a.IsPlain → (∀ id ∈ a.equation.vars, ∀ image, images.lookup id = some image →
          image.ctx.same a.ctx = true) → ∃ s, a.mapFree images = .ok s) := by
  refine ⟨fun answer ok => ?_, fun na => ⟨?_, ?_, fun hab hbc => ?_, fun plain => ?_, fun nb => ?_⟩,
    fun k images rules admits htrivial => ⟨fun s hs => ?_, exists_mapFree⟩⟩
  · rw [ha.denotes.of_implies hb.denotes ok]
    exact Equation.implies_iff
  · exact ⟨_, ha.denotes.implies_eq hb.denotes na⟩
  · rw [ha.denotes.implies_eq ha.denotes na, Equation.implies_refl]
  · rw [ha.denotes.implies_eq hc.denotes na]
    have hfirst := (ha.denotes.of_implies hb.denotes hab).symm
    have hsecond := (hb.denotes.of_implies hc.denotes hbc).symm
    exact congrArg Except.ok (Equation.implies_trans hfirst hsecond)
  · rw [ha.denotes.implies_eq hb.denotes na, Except.ok.injEq, Equation.implies_iff]
    exact exists_turns_iff_mapFree ha plain
  · rw [ha.denotes.implies_eq hb.denotes na, hb.denotes.implies_eq ha.denotes nb,
      ha.denotes.equivalent_eq hb.denotes na nb]
    simp only [Except.ok.injEq]
    exact Equation.equivalent_iff_implies.symm
  · have hdenotes := denotes_of_mapFree ha admits hs
    have hrules : ∀ rule ∈ k.rules, rule.statement.Denotes rule.equation := fun rule hrule => by
      rw [rule.equation_eq]
      exact (rules rule hrule).denotes
    have hinstance := Kernel.isTrivial_bind (ha.denotes.of_findsTrivial hrules htrivial).symm
      (Substitution.image (Expression.terms images))
    exact ⟨fun answer ok => (hdenotes.of_findsTrivial hrules ok).trans hinstance, fun narrow =>
      (hdenotes.findsTrivial_eq hrules narrow).trans (congrArg Except.ok hinstance)⟩

/-- The involution law under another name and read from right to left. -/
def turned : Statement := .ofEquation .involution ⟨.var 5, .app 0 [.app 0 [.var 5]]⟩

/-- The variable of the involution law is bound to a term that has it. -/
def bindingNested : DenseMap Expression :=
  DenseMap.empty.bound 0 (.ofTerm .involution (.app 0 [.var 0]))

theorem isPlain_involution : involution.IsPlain := by
  have hcovered : ∀ t, Vocabulary.plain.Covers t → Vocabulary.plain.Covers (.app 0 [t]) := by
    intro t covered
    refine .app (Nat.succ_pos 0) fun u hu => ?_
    obtain rfl := List.mem_singleton.1 hu
    exact covered
  have hacyclic : involution.IsAcyclic := isAcyclic_ofEquation _ _
  refine ⟨⟨⟨hacyclic.denotes.lhs, DenseSet.fitRow_of_isNarrow (by decide)⟩, ?_⟩,
    ⟨⟨hacyclic.denotes.rhs, DenseSet.fitRow_of_isNarrow (by decide)⟩, ?_⟩⟩
  · exact hcovered _ (hcovered _ (.var 0))
  · exact .var 0

theorem implies_instance_preorder_involution :
    involution.equivalent turned = .ok true ∧ involution.implies involution = .ok true ∧
      (∃ images s, involution.Admits images ∧ involution.mapFree images = .ok s ∧
        (s.identical turned = true ∨ s.identical turned.transpose = true)) ∧
      ∃ s, involution.mapFree bindingNested = .ok s ∧
        (Kernel.involution {}).findsTrivial s = .ok true := by
  have hacyclic : involution.IsAcyclic := isAcyclic_ofEquation _ _
  have hacyclic' : turned.IsAcyclic := isAcyclic_ofEquation _ _
  obtain ⟨-, hnear, htrivial⟩ :=
    implies_instance_preorder involution turned involution hacyclic hacyclic' hacyclic
  obtain ⟨-, hself, -, hreplaced, hmutual⟩ := hnear (by decide)
  have hthere : involution.implies turned = .ok true := rfl
  have hback : turned.implies involution = .ok true := rfl
  have hlookup : ∀ id image, bindingNested.lookup id = some image →
      image = .ofTerm .involution (.app 0 [.var 0]) := by
    intro id image himage
    rw [bindingNested, Expression.lookup_single] at himage
    split at himage
    · exact (Option.some.inj himage).symm
    · cases himage
  have hadmits : ∀ e : Expression, e.Admits bindingNested := by
    intro e id _ image himage
    rw [hlookup id image himage]
    exact TermGraph.isAcyclic_ofTerm (.app 0 [.var 0])
  have hrules : ∀ rule ∈ (Kernel.involution {}).rules, rule.statement.IsAcyclic := by
    intro rule hrule
    obtain rfl := List.mem_singleton.1 hrule
    exact hacyclic
  obtain ⟨hstays, hexists⟩ := htrivial (.involution {}) bindingNested hrules
    ⟨hadmits _, hadmits _⟩ rfl
  obtain ⟨s, hs⟩ := hexists isPlain_involution fun id _ image himage => by
    rw [hlookup id image himage]
    rfl
  exact ⟨(hmutual (by decide)).1 ⟨hthere, hback⟩, hself, (hreplaced isPlain_involution).1 hthere,
    s, hs, (hstays s hs).2 (by decide)⟩

/-- A statement whose variables are the first and the last one of all does not imply itself: the
test fails. -/
theorem implies_instance_preorder_not_apart :
    apart.IsAcyclic ∧ apart.implies apart = .error .rowTooLong :=
  ⟨isAcyclic_apart, rfl⟩

end Statement

end Equational
