import Equational.Proofs.Implication
import Equational.Proofs.Occurrence
import Mathlib.SetTheory.Cardinal.Arithmetic

/-!
# Renamings that are found are bijective

The renaming that takes one term to another is found greedily, in two maps that are kept inverse to
each other. What is found are the pairs of variables that stand at the same place in the two terms,
and nothing else (`Term.get?_renameInto`). Only finitely many variables are concerned, so a renaming
that is one-to-one on them is part of a permutation of all variables, and equality up to a renaming
is the same as equality up to a permutation. That this is an equivalence relation on statements, in
all combinations of orientations, comes from the instance preorder.
-/

namespace Equational

namespace Renaming

variable {r result : Renaming} {vars : List Nat} {condition : (Nat → Nat) → Prop} {ρ : Nat → Nat}

/-- The pairs that are known in the end, said by any renaming that meets the condition. -/
theorem Narrows.get?_iff (h : r.Narrows vars condition (some result)) (extended : r.ExtendedBy ρ)
    (meets : condition ρ) {id other : Nat} :
    result.forward.get? id = some other ↔
      r.forward.get? id = some other ∨ id ∈ vars ∧ ρ id = other := by
  obtain ⟨-, hextended, hknown⟩ := h
  have hρ : result.ExtendedBy ρ := (hextended ρ).2 ⟨extended, meets⟩
  constructor
  · intro hid
    have hmem : id ∈ r.scope vars := (hknown id).1 ((IdMap.contains_iff _ _).2 ⟨other, hid⟩)
    rcases hmem with hold | hnew
    · obtain ⟨image, himage⟩ := (IdMap.contains_iff _ _).1 hold
      obtain rfl : image = other := (extended id image himage).symm.trans (hρ id other hid)
      exact .inl himage
    · exact .inr ⟨hnew, hρ id other hid⟩
  · intro hid
    have hvalue : ρ id = other := hid.elim (extended id other) And.right
    have hmem : id ∈ r.scope vars :=
      hid.imp (fun h => (IdMap.contains_iff _ _).2 ⟨other, h⟩) And.left
    obtain ⟨image, himage⟩ := (IdMap.contains_iff _ _).1 ((hknown id).2 hmem)
    rw [himage, ← hρ id image himage, hvalue]

theorem finite_scope (r : Renaming) (vars : List Nat) : (r.scope vars).Finite := by
  refine (List.finite_toSet (r.forward.keys ++ vars)).subset fun id hid => ?_
  rw [mem_scope, ← IdMap.mem_keys] at hid
  exact List.mem_append.2 hid

/-- A renaming that is one-to-one on finitely many variables is part of a permutation. -/
theorem exists_perm {s : Set Nat} (finite : s.Finite) (hinj : Set.InjOn ρ s) :
    ∃ π : Equiv.Perm Nat, ∀ id ∈ s, π id = ρ id := by
  have hlt : Cardinal.mk s < Cardinal.mk Nat := by
    rw [Cardinal.mk_nat]
    exact Cardinal.lt_aleph0_iff_set_finite.2 finite
  obtain ⟨π, hπ⟩ :=
    Cardinal.extend_function_of_lt ⟨fun id : s => ρ id, hinj.injective⟩ hlt ⟨.refl Nat⟩
  exact ⟨π, fun id hid => hπ ⟨id, hid⟩⟩

end Renaming

namespace Term

open Renaming

variable {a b : Term} {r result : Renaming}

theorem renameInto_isSome_iff (inverse : r.IsInverse) :
    (a.renameInto b r).isSome = true ↔
      ∃ ρ, Set.InjOn ρ (r.scope a.vars) ∧ r.ExtendedBy ρ ∧ a.rename ρ = b :=
  (a.renameInto_narrows b r inverse).isSome_iff

theorem renameInto_isSome_iff_perm (inverse : r.IsInverse) :
    (a.renameInto b r).isSome = true ↔
      ∃ π : Equiv.Perm Nat, r.ExtendedBy π ∧ a.rename π = b := by
  rw [renameInto_isSome_iff inverse]
  constructor
  · rintro ⟨ρ, hinj, hextended, hrename⟩
    obtain ⟨π, hπ⟩ := exists_perm (r.finite_scope a.vars) hinj
    refine ⟨π, fun id other hid => ?_, ?_⟩
    · rw [hπ id (.inl ((IdMap.contains_iff _ _).2 ⟨other, hid⟩))]
      exact hextended id other hid
    · rw [← hrename]
      exact bind_congr fun id hid => congrArg var (hπ id (.inr hid))
  · rintro ⟨π, hextended, hrename⟩
    exact ⟨π, π.injective.injOn, hextended, hrename⟩

/-- **The pairs that are added are those that are needed**: the variables that stand at the same
place in the two terms. -/
theorem get?_renameInto (inverse : r.IsInverse) (found : a.renameInto b r = some result)
    {id other : Nat} :
    result.forward.get? id = some other ↔ r.forward.get? id = some other ∨
      ∃ path, a.HasAt path (.var id) ∧ b.HasAt path (.var other) := by
  have hnarrows := a.renameInto_narrows b r inverse
  obtain ⟨ρ, -, hextended, rfl⟩ := (renameInto_isSome_iff inverse).1 (by rw [found]; rfl)
  rw [found] at hnarrows
  rw [hnarrows.get?_iff hextended rfl]
  refine or_congr_right ⟨?_, ?_⟩
  · rintro ⟨hid, rfl⟩
    obtain ⟨path, hpath⟩ := mem_vars_iff_hasAt.1 hid
    exact ⟨path, hpath, hpath.bind _⟩
  · rintro ⟨path, hpath, hother⟩
    exact ⟨mem_vars_iff_hasAt.2 ⟨path, hpath⟩, var.inj ((hpath.bind _).unique hother)⟩

end Term

namespace Expression

open DenseMap (IsNarrow)

variable {a b : Expression} {rows result : RenamingRows} {same : Bool}

theorem exists_equivalentUnder (ha : a.graph.IsAcyclic) (hb : b.graph.IsAcyclic)
    (room : rows.HasRoom a.term.vars b.term.vars) :
    ∃ answer, a.equivalentUnder b rows = .ok answer := by
  have hagrees := agrees_equivalentUnder (denotes_term ha) (denotes_term hb) (fun _ hid => hid)
    (fun _ hid => hid) rows
  obtain ⟨answer, ok, -⟩ := hagrees.runs room
  exact ⟨answer, ok⟩

theorem renameInto_of_equivalentUnder (ha : a.graph.IsAcyclic) (hb : b.graph.IsAcyclic)
    (found : a.equivalentUnder b rows = .ok (same, result)) :
    a.term.renameInto b.term rows.renaming = if same then some result.renaming else none :=
  have hagrees := agrees_equivalentUnder (denotes_term ha) (denotes_term hb) (fun _ hid => hid)
    (fun _ hid => hid) rows
  (hagrees.finds trivial _ found).2

theorem same_iff (ha : a.graph.IsAcyclic) (hb : b.graph.IsAcyclic)
    (found : a.equivalentUnder b rows = .ok (same, result)) :
    same = true ↔ (a.term.renameInto b.term rows.renaming).isSome = true := by
  rw [renameInto_of_equivalentUnder ha hb found]
  cases same with
  | true => simp
  | false => simp

theorem of_equivalent (ha : a.graph.IsAcyclic) (hb : b.graph.IsAcyclic)
    (ok : a.equivalent b = .ok same) :
    same = true ↔ (a.term.renameInto b.term {}).isSome = true := by
  obtain ⟨⟨same, result⟩, found, ok⟩ := bind_eq_ok.1 ok
  obtain rfl := Except.ok.inj ok
  exact same_iff ha hb found

theorem exists_equivalent (ha : a.graph.IsAcyclic) (hb : b.graph.IsAcyclic)
    (na : IsNarrow a.term.vars) (nb : IsNarrow b.term.vars) :
    ∃ answer, a.equivalent b = .ok answer := by
  have room : RenamingRows.HasRoom {} a.term.vars b.term.vars :=
    ⟨DenseMap.hasRoom_empty na, DenseMap.hasRoom_empty nb⟩
  obtain ⟨⟨same, result⟩, found⟩ := exists_equivalentUnder ha hb room
  exact ⟨same, bind_eq_ok.2 ⟨_, found, rfl⟩⟩

end Expression

namespace Statement

open DenseMap (IsNarrow)

/-- No records lead in a circle, and the variables are near to each other. -/
def IsComparable (s : Statement) : Prop := s.IsAcyclic ∧ IsNarrow s.equation.vars

/-- **Equivalence is equality up to a bijective renaming.** Let no records of the expressions lead
in a circle, and let two rows be inverse to each other. If they have room for the variables then
there is an answer. Whenever there is one, it tells if a renaming that extends the rows and is
one-to-one on the variables concerned turns the first expression into the second, and then a
permutation of all variables does. The pairs that are added are those of the variables at the same
places, and the rows stay inverse to each other. So whenever it is answered whether two statements
without circles are equivalent, they are if and only if one renaming that is one-to-one on the
variables of the first gives the second or its transpose. There is an answer if the variables of
each are near to each other, and for such statements this is an equivalence relation. -/
theorem equivalence_up_to_renaming :
    (∀ (a b : Expression) (rows : Expression.RenamingRows), a.graph.IsAcyclic →
      b.graph.IsAcyclic → rows.renaming.IsInverse →
      (rows.HasRoom a.term.vars b.term.vars → ∃ answer, a.equivalentUnder b rows = .ok answer) ∧
      ∀ same result, a.equivalentUnder b rows = .ok (same, result) →
        (same = true ↔ ∃ ρ : Nat → Nat, Set.InjOn ρ (rows.renaming.scope a.term.vars) ∧
          rows.renaming.ExtendedBy ρ ∧ a.term.rename ρ = b.term) ∧
        (same = true ↔
          ∃ π : Equiv.Perm Nat, rows.renaming.ExtendedBy π ∧ a.term.rename π = b.term) ∧
        (same = true → result.renaming.IsInverse ∧
          ∀ id other, result.forward.lookup id = some other ↔ rows.forward.lookup id = some other ∨
            ∃ path, a.term.HasAt path (.var id) ∧ b.term.HasAt path (.var other))) ∧
      (∀ a b : Expression, a.graph.IsAcyclic → b.graph.IsAcyclic →
        (IsNarrow a.term.vars → IsNarrow b.term.vars → ∃ answer, a.equivalent b = .ok answer) ∧
        ∀ answer, a.equivalent b = .ok answer →
          (answer = true ↔ ∃ π : Equiv.Perm Nat, a.term.rename π = b.term)) ∧
      (∀ s t : Statement, s.IsAcyclic → t.IsAcyclic →
        (IsNarrow s.equation.vars → IsNarrow t.equation.vars →
          ∃ answer, s.equivalent t = .ok answer) ∧
        ∀ answer, s.equivalent t = .ok answer →
          (answer = true ↔ ∃ ρ : Nat → Nat, Set.InjOn ρ {id | id ∈ s.equation.vars} ∧
            (s.equation.rename ρ = t.equation ∨ s.equation.rename ρ = t.equation.transpose))) ∧
      Equivalence fun s t : { s : Statement // s.IsComparable } =>
        s.1.equivalent t.1 = .ok true := by
  refine ⟨fun a b rows ha hb inverse => ⟨Expression.exists_equivalentUnder ha hb,
    fun same result found => ?_⟩, fun a b ha hb => ⟨Expression.exists_equivalent ha hb,
    fun answer ok => ?_⟩, fun s t hs ht => ⟨fun ns nt => ?_, fun answer ok => ?_⟩, ?_⟩
  · have hsame := Expression.same_iff ha hb found
    refine ⟨hsame.trans (Term.renameInto_isSome_iff inverse),
      hsame.trans (Term.renameInto_isSome_iff_perm inverse), ?_⟩
    rintro rfl
    have hfound := Expression.renameInto_of_equivalentUnder ha hb found
    have hnarrows := a.term.renameInto_narrows b.term rows.renaming inverse
    rw [hfound] at hnarrows
    refine ⟨hnarrows.1, fun id other => ?_⟩
    rw [← DenseMap.get?_toIdMap, ← DenseMap.get?_toIdMap]
    exact Term.get?_renameInto inverse hfound
  · rw [Expression.of_equivalent ha hb ok,
      Term.renameInto_isSome_iff_perm Renaming.isInverse_empty]
    simp only [Renaming.extendedBy_empty, true_and]
  · exact ⟨_, hs.denotes.equivalent_eq ht.denotes ns nt⟩
  · rw [hs.denotes.of_equivalent ht.denotes ok]
    exact Equation.equivalent_iff
  · -- What is equivalent is what is below each other in the instance preorder.
    have hiff : ∀ s t : { s : Statement // s.IsComparable }, s.1.equivalent t.1 = .ok true ↔
        s.1.equation.implies t.1.equation = true ∧ t.1.equation.implies s.1.equation = true := by
      rintro ⟨s, hs, ns⟩ ⟨t, ht, nt⟩
      rw [hs.denotes.equivalent_eq ht.denotes ns nt, Except.ok.injEq,
        Equation.equivalent_iff_implies]
    simp only [hiff]
    exact ⟨fun s => ⟨Equation.implies_refl _, Equation.implies_refl _⟩, And.symm,
      fun hab hbc => ⟨Equation.implies_trans hab.1 hbc.1, Equation.implies_trans hbc.2 hab.2⟩⟩

/-- One pair is known before. -/
def knownPair : Expression.RenamingRows :=
  ⟨DenseMap.empty.bound 7 3, DenseMap.empty.bound 3 7⟩

/-- The symbol with two arguments, applied to variables. -/
def pairOf (i j : Nat) : Expression := .ofTerm .paired (.app 0 [.var i, .var j])

theorem isInverse_knownPair : knownPair.renaming.IsInverse := by
  have hrenaming : knownPair.renaming = ⟨IdMap.empty.insert 7 3, IdMap.empty.insert 3 7⟩ :=
    congrArg₂ Renaming.mk (DenseMap.toIdMap_bound _ 7 3) (DenseMap.toIdMap_bound _ 3 7)
  rw [hrenaming]
  exact Renaming.isInverse_empty.insert rfl rfl

theorem hasRoom_knownPair {ids ids' : List Nat} (small : ∀ id ∈ ids, id < 8)
    (small' : ∀ id ∈ ids', id < 8) : knownPair.HasRoom ids ids' where
  forward := ⟨0, 8, by decide, (DenseMap.fitsIn_empty 0 8).bound (by decide) (by decide) _,
    fun id hid => ⟨Nat.zero_le id, small id hid⟩⟩
  backward := ⟨0, 8, by decide, (DenseMap.fitsIn_empty 0 8).bound (by decide) (by decide) _,
    fun id hid => ⟨Nat.zero_le id, small' id hid⟩⟩

theorem equivalence_up_to_renaming_pair :
    (∃ result, (pairOf 0 1).equivalentUnder (pairOf 5 2) knownPair = .ok (true, result) ∧
        result.renaming.IsInverse ∧ result.forward.lookup 7 = some 3 ∧
        result.forward.lookup 1 = some 2) ∧
      (∃ π : Equiv.Perm Nat, π 7 = 3 ∧
        (pairOf 0 1).term.rename π = (pairOf 5 2).term) ∧
      -- The variable 3 is taken.
      ∀ π : Equiv.Perm Nat, knownPair.renaming.ExtendedBy π →
        (pairOf 0 1).term.rename π ≠ (pairOf 3 2).term := by
  obtain ⟨hunder, -, -, -⟩ := equivalence_up_to_renaming
  have hacyclic : ∀ i j, (pairOf i j).graph.IsAcyclic := fun i j =>
    TermGraph.isAcyclic_ofTerm (.app 0 [.var i, .var j])
  obtain ⟨-, hfinds⟩ := hunder (pairOf 0 1) (pairOf 5 2) knownPair (hacyclic 0 1) (hacyclic 5 2)
    isInverse_knownPair
  obtain ⟨hruns, htaken⟩ := hunder (pairOf 0 1) (pairOf 3 2) knownPair (hacyclic 0 1) (hacyclic 3 2)
    isInverse_knownPair
  obtain ⟨result, hresult⟩ :
      ∃ result, (pairOf 0 1).equivalentUnder (pairOf 5 2) knownPair = .ok (true, result) := ⟨_, rfl⟩
  obtain ⟨-, hperm, hpairs⟩ := hfinds true result hresult
  obtain ⟨hinverse, hlookup⟩ := hpairs rfl
  obtain ⟨π, hextended, hrename⟩ := hperm.1 rfl
  refine ⟨⟨result, hresult, hinverse, (hlookup 7 3).2 (.inl rfl), (hlookup 1 2).2 (.inr ?_)⟩,
    ⟨π, hextended 7 3 rfl, hrename⟩, fun π' hextended' hrename' => ?_⟩
  · exact ⟨[1], .arg rfl (.root _), .arg rfl (.root _)⟩
  · obtain ⟨⟨same, rows⟩, htest⟩ := hruns (hasRoom_knownPair (by decide) (by decide))
    obtain ⟨-, htaken, -⟩ := htaken same rows htest
    obtain rfl : same = true := htaken.2 ⟨π', hextended', hrename'⟩
    cases htest

/-- A statement whose variables are the first and the last one of all is not found to be equivalent
to itself: the test fails. -/
theorem equivalence_up_to_renaming_not_apart :
    apart.IsAcyclic ∧ apart.equivalent apart = .error .rowTooLong ∧
      Expression.apart.equivalentUnder Expression.apart {} = .error .rowTooLong :=
  ⟨isAcyclic_apart, rfl, rfl⟩

end Statement

end Equational
