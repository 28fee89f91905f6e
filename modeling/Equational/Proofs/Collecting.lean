import Equational.Expansion
import Equational.Proofs.DenseSet
import Equational.Proofs.Draws
import Equational.Proofs.Rewriting

/-!
# Collecting variables

The variables of a term or of an equation are collected in a row of limited length. If they are
between bounds that are near to each other then this succeeds (`Equation.exists_collect`), and
whenever it succeeds the row holds just these variables, in ascending order (`toIdMap_of_collect`).
So the least variable and the candidates that are read off a row are those of the equation.
-/

namespace Equational

namespace DenseSet

open DenseMap (limit FitsIn IsNarrow)

variable {s s' : DenseSet} {ids : List Nat}

theorem isSome_lookup_of_addAll (ok : s.addAll ids = .ok s') (id : Nat) :
    (s'.lookup id).isSome = true ↔ (s.lookup id).isSome = true ∨ id ∈ ids := by
  induction ids generalizing s with
  | nil =>
    obtain rfl := Except.ok.inj ok
    simp
  | cons i ids ih =>
    rw [addAll_cons, addAll_singleton] at ok
    split at ok
    next =>
      rw [ih ok, DenseMap.lookup_bound]
      by_cases hid : id = i
      · simp [hid]
      · simp [hid]
    next => cases ok

/-- The row holds the ids that a set has if the same ids were added. -/
theorem toIdMap_of_addAll {set : IdSet} (ok : s.addAll ids = .ok s')
    (same : ∀ id, set.contains id = true ↔ (s.lookup id).isSome = true ∨ id ∈ ids) :
    s'.toIdMap = set := by
  refine IdMap.ext_get? fun id => ?_
  have hsome : (set.get? id).isSome = (s'.lookup id).isSome :=
    Bool.eq_iff_iff.2 ((same id).trans (isSome_lookup_of_addAll ok id).symm)
  rw [DenseMap.get?_toIdMap]
  cases hget : set.get? id with
  | none =>
    rw [hget] at hsome
    exact Option.not_isSome_iff_eq_none.1 (by simp [← hsome])
  | some value =>
    rw [hget] at hsome
    exact Option.isSome_iff_exists.1 hsome.symm |>.elim fun _ h => h

theorem toIdMap_of_ofIds {set : IdSet} (ok : ofIds ids = .ok s)
    (same : ∀ id, set.contains id = true ↔ id ∈ ids) : s.toIdMap = set :=
  toIdMap_of_addAll ok fun id => (same id).trans (by simp [DenseMap.lookup, DenseMap.empty])

theorem exists_addAll {lo hi : Nat} (near : 2 * (hi - lo) ≤ limit) (fits : FitsIn s lo hi)
    (within : ∀ id ∈ ids, lo ≤ id ∧ id < hi) : ∃ s', s.addAll ids = .ok s' ∧ FitsIn s' lo hi := by
  induction ids generalizing s with
  | nil => exact ⟨s, rfl, fits⟩
  | cons id ids ih =>
    obtain ⟨⟨hlo, hhi⟩, hrest⟩ := List.forall_mem_cons.1 within
    obtain ⟨s', hrun, fits'⟩ := ih (fits.bound hlo hhi ()) hrest
    refine ⟨s', ?_, fits'⟩
    rw [addAll_cons, addAll_singleton, if_pos ((fits.sizeFor_le hlo hhi).trans near)]
    exact hrun

end DenseSet

open DenseMap (limit FitsIn IsNarrow)

namespace Term

variable {t : Term} {s : DenseSet}

theorem toIdMap_of_collect (ok : t.collect = .ok s) : s.toIdMap = t.freeIds :=
  DenseSet.toIdMap_of_ofIds ok t.contains_freeIds

theorem exists_collect (narrow : IsNarrow t.vars) : ∃ s, t.collect = .ok s :=
  DenseSet.fitRow_of_isNarrow narrow

end Term

namespace Equation

variable {e : Equation} {s : DenseSet}

theorem toIdMap_of_collect (ok : e.collect = .ok s) : s.toIdMap = e.freeIds := by
  obtain ⟨left, hleft, ok⟩ := bind_eq_ok.1 ok
  obtain ⟨right, hright, ok⟩ := bind_eq_ok.1 ok
  refine DenseSet.toIdMap_of_addAll ok fun id => ?_
  have hkeys : id ∈ right.keys ↔ id ∈ e.rhs.vars := by
    rw [← Term.contains_freeIds, ← Term.toIdMap_of_collect hright]
    exact IdMap.mem_keys right.toIdMap id
  have hlookup : (left.lookup id).isSome = true ↔ id ∈ e.lhs.vars := by
    rw [← Term.contains_freeIds, ← Term.toIdMap_of_collect hleft, IdMap.contains,
      DenseMap.get?_toIdMap]
  rw [contains_freeIds, mem_vars, hkeys, hlookup]

theorem keys_of_collect (ok : e.collect = .ok s) : s.keys = e.freeIds.keys :=
  congrArg IdMap.keys (toIdMap_of_collect ok)

theorem least?_of_collect (ok : e.collect = .ok s) : s.least? = e.freeIds.least? :=
  congrArg IdSet.least? (toIdMap_of_collect ok)

theorem exists_collect (narrow : IsNarrow e.vars) : ∃ s, e.collect = .ok s := by
  obtain ⟨lo, hi, near, within⟩ := narrow.exists_bounds
  have hleft : ∀ id ∈ e.lhs.vars, lo ≤ id ∧ id < hi := fun id hid =>
    within id (mem_vars.2 (.inl hid))
  have hright : ∀ id ∈ e.rhs.vars, lo ≤ id ∧ id < hi := fun id hid =>
    within id (mem_vars.2 (.inr hid))
  obtain ⟨left, hl, fits⟩ := DenseSet.exists_addAll near (DenseMap.fitsIn_empty lo hi) hleft
  obtain ⟨right, hr, -⟩ := DenseSet.exists_addAll near (DenseMap.fitsIn_empty lo hi) hright
  have hkeys : ∀ id ∈ right.keys, lo ≤ id ∧ id < hi := by
    intro id hid
    have hmem : right.toIdMap.contains id = true := (IdMap.mem_keys right.toIdMap id).1 hid
    rw [Term.toIdMap_of_collect (t := e.rhs) hr, Term.contains_freeIds] at hmem
    exact hright id hmem
  obtain ⟨s, hs, -⟩ := DenseSet.exists_addAll near fits hkeys
  exact ⟨s, bind_eq_ok.2 ⟨left, hl, bind_eq_ok.2 ⟨right, hr, hs⟩⟩⟩

end Equation

theorem Candidate.all_eq_ok {e : Equation} {constants : List Nat} {candidates : List Candidate}
    (ok : Candidate.all e constants = .ok candidates) :
    candidates = Candidate.listed e constants := by
  obtain ⟨ids, hids, hrest⟩ := bind_eq_ok.1 ok
  rw [← Except.ok.inj hrest, Candidate.listed, Equation.keys_of_collect hids]

theorem Candidate.exists_all {e : Equation} (narrow : IsNarrow e.vars) (constants : List Nat) :
    Candidate.all e constants = .ok (Candidate.listed e constants) := by
  obtain ⟨ids, hids⟩ := Equation.exists_collect narrow
  rw [Candidate.all, hids, Candidate.listed, ← Equation.keys_of_collect hids]
  rfl

/-! ### Lines -/

namespace Equation

variable {e : Equation}

theorem mem_vars_shift {n id : Nat} : id ∈ (e.shift n).vars ↔ ∃ i ∈ e.vars, id = i + n := by
  rw [shift_eq_bind, mem_vars_bind]
  simp only [Term.mem_vars_var]

theorem isNarrow_shift_iff {n : Nat} : IsNarrow (e.shift n).vars ↔ IsNarrow e.vars := by
  constructor
  · intro narrow i hi j hj
    have h := narrow _ (mem_vars_shift.2 ⟨i, hi, rfl⟩) _ (mem_vars_shift.2 ⟨j, hj, rfl⟩)
    omega
  · intro narrow _ hi _ hj
    obtain ⟨i, hmem, rfl⟩ := mem_vars_shift.1 hi
    obtain ⟨j, hmem', rfl⟩ := mem_vars_shift.1 hj
    have h := narrow i hmem j hmem'
    omega

end Equation

namespace Line

variable {l l' : Line} {bound n : Nat}

theorem equation_of_shift (ok : l.shift n = .ok l') : l'.equation = l.equation.shift n := by
  rw [shift] at ok
  split at ok
  next hzero =>
    obtain rfl := Except.ok.inj ok
    simp only [hzero, Equation.shift, Term.shift_zero]
  next =>
    obtain ⟨_, -, ok⟩ := bind_eq_ok.1 ok
    obtain rfl := Except.ok.inj ok
    rfl

theorem exists_shift (words : ∀ id ∈ l.equation.vars, id + n < UInt64.size) :
    ∃ l', l.shift n = .ok l' := by
  rw [shift]
  split
  next => exact ⟨l, rfl⟩
  next =>
    refine ⟨_, bind_eq_ok.2 ⟨(), require_eq_ok.2 ?_, rfl⟩⟩
    simpa using words

/-- A line that is moved above the rules holds the equation that is above them. -/
theorem equation_of_moveAbove (ok : Expansion.moveAbove bound l = .ok l') :
    l'.equation = l.equation.above bound := by
  obtain ⟨ids, hids, ok⟩ := bind_eq_ok.1 ok
  rw [Equation.least?_of_collect hids] at ok
  unfold Equation.above
  cases hleast : l.equation.freeIds.least? with
  | none =>
    rw [hleast] at ok
    exact congrArg Line.equation (Except.ok.inj ok).symm
  | some least =>
    rw [hleast] at ok
    dsimp only at ok ⊢
    split at ok
    next hlt =>
      rw [if_pos hlt]
      exact equation_of_shift ok
    next hge =>
      rw [if_neg hge]
      exact congrArg Line.equation (Except.ok.inj ok).symm

theorem exists_moveAbove (narrow : IsNarrow l.equation.vars)
    (words : ∀ id ∈ (l.equation.above bound).vars, id < UInt64.size) :
    ∃ l', Expansion.moveAbove bound l = .ok l' := by
  obtain ⟨ids, hids⟩ := Equation.exists_collect narrow
  rw [Expansion.moveAbove, hids, ok_bind, Equation.least?_of_collect hids]
  unfold Equation.above at words
  cases hleast : l.equation.freeIds.least? with
  | none => exact ⟨l, rfl⟩
  | some least =>
    rw [hleast] at words
    dsimp only at words ⊢
    split
    next hlt =>
      rw [if_pos hlt] at words
      refine exists_shift fun id hid => words _ ?_
      exact Equation.mem_vars_shift.2 ⟨id, hid, rfl⟩
    next => exact ⟨l, rfl⟩

theorem equation_of_assign {id : Nat} {value : Term} (ok : l.assign id value = .ok l') :
    l'.equation = l.equation.assign id value := by
  obtain ⟨_, -, ok⟩ := bind_eq_ok.1 ok
  obtain ⟨_, -, ok⟩ := bind_eq_ok.1 ok
  obtain rfl := Except.ok.inj ok
  rfl

theorem exists_assign (narrow : IsNarrow l.equation.vars) (id : Nat) (value : Term) :
    ∃ l', l.assign id value = .ok l' := by
  have hlhs := Term.exists_collect (narrow.mono fun i hi => Equation.mem_vars.2 (.inl hi))
  have hrhs := Term.exists_collect (narrow.mono fun i hi => Equation.mem_vars.2 (.inr hi))
  obtain ⟨_, hl⟩ := hlhs
  obtain ⟨_, hr⟩ := hrhs
  exact ⟨_, bind_eq_ok.2 ⟨_, hl, bind_eq_ok.2 ⟨_, hr, rfl⟩⟩⟩

theorem equation_replaceAt (l : Line) (site : Site) (new : Term) (backing : Backing) :
    (l.replaceAt site new backing).equation = l.equation.replaceAt site new := by
  obtain ⟨side, o⟩ := site
  cases side with
  | lhs => rfl
  | rhs => rfl

end Line

end Equational
