import Equational.Proofs.DenseMap

/-!
# Dense sets

A dense set is a dense map to the one value of `Unit`, and the map that it holds marks its members.
Whatever operations a dense map or a dense set was made by, it answers like the finite map or the
finite set made by the same operations, and lists its members in ascending order. Only ids that are
far apart can make an operation fail (`DenseMap.histories_show`).
-/

namespace Equational

namespace DenseSet

open DenseMap (Holds limit FitsIn SameRow)

variable {s : DenseSet}

section Members

variable {members : Finset Nat}

/-! ### Members -/

/-- A set of ids as a map to the one value of `Unit`. -/
def mark (members : Finset Nat) (id : Nat) : Option Unit := if id ∈ members then some () else none

theorem isSome_mark (members : Finset Nat) (id : Nat) :
    (mark members id).isSome = decide (id ∈ members) := by
  unfold mark
  by_cases h : id ∈ members
  · simp [h]
  · simp [h]

theorem mark_insert (members : Finset Nat) (id : Nat) :
    mark (insert id members) = Function.update (mark members) id (some ()) := by
  funext i
  simp only [Function.update_apply, mark, Finset.mem_insert]
  by_cases hi : i = id
  · simp [hi]
  · simp [hi]

theorem mark_erase (members : Finset Nat) (id : Nat) :
    mark (members.erase id) = Function.update (mark members) id none := by
  funext i
  simp only [Function.update_apply, mark, Finset.mem_erase]
  by_cases hi : i = id
  · simp [hi]
  · simp [hi]

theorem add_of_le (holds : Holds s (mark members)) {id : Nat} (fits : s.sizeFor id ≤ limit) :
    s.add id = .ok (decide (id ∉ members), s.bound id ()) := by
  rw [add, DenseMap.insert_of_le fits, holds.lookup]
  show Except.ok ((mark members id).isNone, s.bound id ()) = _
  rw [← Option.not_isSome, isSome_mark, decide_not]

theorem add_of_lt {id : Nat} (long : limit < s.sizeFor id) : s.add id = .error .rowTooLong := by
  rw [add, DenseMap.insert_of_lt long]
  rfl

theorem holds_bound (holds : Holds s (mark members)) (id : Nat) :
    Holds (s.bound id ()) (mark (insert id members)) :=
  mark_insert members id ▸ holds.bound id ()

theorem exists_remove (holds : Holds s (mark members)) (id : Nat) :
    ∃ s' : DenseSet, DenseSet.remove s id = .ok (decide (id ∈ members), s') ∧
      Holds s' (mark (members.erase id)) ∧ SameRow s s' := by
  obtain ⟨s', hrun, holds', hrow⟩ := holds.remove id
  refine ⟨s', ?_, mark_erase members id ▸ holds', hrow⟩
  rw [remove, hrun]
  show Except.ok ((mark members id).isSome, s') = _
  rw [isSome_mark]

theorem add_eq (s : DenseSet) (id : Nat) :
    s.add id =
      if s.sizeFor id ≤ limit then .ok ((s.lookup id).isNone, s.bound id ())
      else .error .rowTooLong := by
  rw [add, DenseMap.insert_eq]
  split
  · rfl
  · rfl

/-- Adding an id that is there already changes nothing, also in the row. -/
theorem bound_of_lookup {id : Nat} (present : s.lookup id = some ()) : s.bound id () = s := by
  have covers := DenseMap.covers_of_lookup present
  have hextend : s.extend id = s := by
    have hne : ¬s.slots.isEmpty = true := by
      intro hempty
      have hlt := covers.2
      simp [Array.isEmpty_iff.1 hempty] at hlt
    rw [DenseMap.extend, if_neg hne, if_neg (Nat.not_lt.2 covers.1),
      DenseMap.sizeFor_of_covers covers, Nat.sub_self]
    simp
  have hslot : s.slots.setIfInBounds (id - s.offset) (some ()) = s.slots := by
    rw [DenseMap.lookup, if_pos covers.1, Array.getElem?_eq_getElem covers.2] at present
    refine Array.ext_getElem? fun i => ?_
    rw [Array.getElem?_setIfInBounds]
    split
    next heq => rw [← heq, if_pos covers.2, Array.getElem?_eq_getElem covers.2, ← present]; rfl
    next => rfl
  rw [DenseMap.bound, hextend, DenseMap.put, hslot, present]
  rfl

@[simp] theorem addAll_nil (s : DenseSet) : s.addAll [] = .ok s := rfl

theorem addAll_append (s : DenseSet) (ids ids' : List Nat) :
    s.addAll (ids ++ ids') = (s.addAll ids >>= fun s' : DenseSet => s'.addAll ids') := by
  rw [addAll, List.foldlM_append]
  rfl

theorem addAll_cons (s : DenseSet) (id : Nat) (ids : List Nat) :
    s.addAll (id :: ids) = (s.addAll [id] >>= fun s' : DenseSet => s'.addAll ids) :=
  s.addAll_append [id] ids

theorem addAll_singleton (s : DenseSet) (id : Nat) :
    s.addAll [id] = if s.sizeFor id ≤ limit then .ok (s.bound id ()) else .error .rowTooLong := by
  rw [addAll, List.foldlM_cons, add_eq]
  split
  · rfl
  · rfl

theorem size_le_of_addAll {ids : List Nat} {s' : DenseSet} (short : s.slots.size ≤ limit)
    (ok : s.addAll ids = .ok s') : s'.slots.size ≤ limit := by
  induction ids generalizing s with
  | nil =>
    obtain rfl := Except.ok.inj ok
    exact short
  | cons id ids ih =>
    rw [addAll_cons, addAll_singleton] at ok
    split at ok
    next fits =>
      refine ih ?_ ok
      rw [DenseMap.bound, DenseMap.put, Array.size_setIfInBounds, DenseMap.size_extend]
      exact fits
    next => cases ok

/-- The ids can be held together in one row. -/
def FitRow (ids : List Nat) : Prop := ∃ s, ofIds ids = .ok s

theorem fitRow_nil : FitRow [] := ⟨_, rfl⟩

theorem fitRow_singleton (id : Nat) : FitRow [id] := ⟨_, addAll_singleton .empty id⟩

/-- Ids are added one after the other, unless the row gets too long for one of them. Then the ids
are not between any bounds that the row was within and that are near to each other. -/
theorem addAll_cases (holds : Holds s (mark members)) (ids : List Nat) :
    (s.addAll ids = .error .rowTooLong ∧ ∀ lo hi, FitsIn s lo hi →
      (∀ id ∈ ids, lo ≤ id ∧ id < hi) → ¬2 * (hi - lo) ≤ limit) ∨
    ∃ s' : DenseSet, s.addAll ids = .ok s' ∧ Holds s' (mark (members ∪ ids.toFinset)) ∧
      (∀ bound, (∀ id ∈ ids, id < bound) → s.reach ≤ 2 * bound → s'.reach ≤ 2 * bound) ∧
      ∀ lo hi, (∀ id ∈ ids, lo ≤ id ∧ id < hi) → FitsIn s lo hi → FitsIn s' lo hi := by
  induction ids generalizing s members with
  | nil =>
    exact .inr ⟨s, rfl, by simpa using holds, fun _ _ hreach => hreach, fun _ _ _ fits => fits⟩
  | cons id ids ih =>
    rcases Nat.lt_or_ge limit (s.sizeFor id) with long | short
    · refine .inl ⟨?_, fun lo hi fits hbounds hlimit => ?_⟩
      · rw [addAll, List.foldlM_cons, add_of_lt long]
        rfl
      · obtain ⟨hlo, hhi⟩ := hbounds id List.mem_cons_self
        exact Nat.not_le.2 long ((fits.sizeFor_le hlo hhi).trans hlimit)
    · have hstep : s.addAll (id :: ids) = DenseSet.addAll (s.bound id ()) ids := by
        rw [addAll, List.foldlM_cons, add_of_le holds short]
        rfl
      rcases ih (holds_bound holds id) with ⟨hrun, wide⟩ | ⟨s', hrun, holds', hreach, hfits⟩
      · refine .inl ⟨hstep.trans hrun, fun lo hi fits hbounds => ?_⟩
        obtain ⟨⟨hlo, hhi⟩, hrest⟩ := List.forall_mem_cons.1 hbounds
        exact wide lo hi (fits.bound hlo hhi ()) hrest
      · refine .inr ⟨s', hstep.trans hrun, ?_, fun bound hbound hle => ?_, ?_⟩
        · rw [List.toFinset_cons, Finset.union_insert, ← Finset.insert_union]
          exact holds'
        · obtain ⟨hid, hids⟩ := List.forall_mem_cons.1 hbound
          apply hreach bound hids
          have := s.reach_bound_le id ()
          omega
        · intro lo hi hbounds fits
          obtain ⟨⟨hlo, hhi⟩, hrest⟩ := List.forall_mem_cons.1 hbounds
          exact hfits lo hi hrest (fits.bound hlo hhi ())

theorem holds_empty : Holds .empty (mark ∅) := by
  have hmark : mark ∅ = fun _ => none := by
    funext id
    simp [mark]
  exact hmark ▸ DenseMap.holds_empty

theorem holds_of_ofIds {ids : List Nat} (ok : ofIds ids = .ok s) : Holds s (mark ids.toFinset) := by
  rcases addAll_cases holds_empty ids with
    ⟨failed, -⟩ | ⟨s', ok', holds, -⟩
  · cases failed.symm.trans ok
  · obtain rfl := Except.ok.inj (ok'.symm.trans ok)
    rwa [Finset.empty_union] at holds

theorem fitRow_of_isNarrow {ids : List Nat} (narrow : DenseMap.IsNarrow ids) : FitRow ids := by
  obtain ⟨lo, hi, hlimit, hbounds⟩ := narrow.exists_bounds
  rcases addAll_cases holds_empty ids with
    ⟨-, wide⟩ | ⟨s, ok, -⟩
  · exact absurd hlimit (wide lo hi (DenseMap.fitsIn_empty lo hi) hbounds)
  · exact ⟨s, ok⟩

/-! ### What can be seen of a set -/

/-- What can be seen of the set is what the finite set has, also in the answers to the next
operation. -/
structure Shows (s : DenseSet) (members : Finset Nat) : Prop where
  contains : ∀ id, s.contains id = .ok (decide (id ∈ members))
  count : s.count = members.card
  isEmpty : s.isEmpty = true ↔ members = ∅
  least : ∀ id, s.least? = some id ↔ IsLeast (members : Set Nat) id
  greatest : ∀ id, s.greatest? = some id ↔ IsGreatest (members : Set Nat) id
  keys : s.keys = members.sort
  ascending : s.keys.Pairwise (· < ·)
  add : ∀ id, (∃ s', s.add id = .ok (decide (id ∉ members), s')) ∨
    s.add id = .error .rowTooLong
  remove : ∀ id, ∃ s', DenseSet.remove s id = .ok (decide (id ∈ members), s')

theorem head?_eq_some_iff_isLeast {l : List Nat} (ascending : l.Pairwise (· < ·)) (id : Nat) :
    l.head? = some id ↔ IsLeast {i | i ∈ l} id := by
  cases l with
  | nil => simp [IsLeast]
  | cons first rest =>
    obtain ⟨hfirst, -⟩ := List.pairwise_cons.1 ascending
    have hleast : IsLeast {i | i ∈ first :: rest} first := by
      refine ⟨List.mem_cons_self, ?_⟩
      rintro i hi
      rcases List.mem_cons.1 hi with rfl | hi
      · exact Nat.le_refl _
      · exact Nat.le_of_lt (hfirst i hi)
    rw [List.head?_cons, Option.some_inj]
    exact ⟨fun h => h ▸ hleast, fun h => hleast.unique h⟩

theorem getLast?_eq_some_iff_isGreatest {l : List Nat} (ascending : l.Pairwise (· < ·)) (id : Nat) :
    l.getLast? = some id ↔ IsGreatest {i | i ∈ l} id := by
  rcases List.eq_nil_or_concat l with rfl | ⟨front, last, rfl⟩
  · simp [IsGreatest]
  · rw [List.concat_eq_append] at ascending ⊢
    obtain ⟨-, -, hlast⟩ := List.pairwise_append.1 ascending
    have hgreatest : IsGreatest {i | i ∈ front ++ [last]} last := by
      refine ⟨by simp, ?_⟩
      rintro i hi
      rcases List.mem_append.1 hi with hi | hi
      · exact Nat.le_of_lt (hlast i hi last (by simp))
      · exact Nat.le_of_eq (by simpa using hi)
    rw [List.getLast?_concat, Option.some_inj]
    exact ⟨fun h => h ▸ hgreatest, fun h => hgreatest.unique h⟩

theorem shows_of_holds (holds : Holds s (mark members)) : s.Shows members := by
  have same (id : Nat) : id ∈ members ↔ (mark members id).isSome = true := by
    rw [isSome_mark, decide_eq_true_eq]
  have hcount := holds.count_eq_card same
  have hkeys : {i | i ∈ s.keys} = (members : Set Nat) := by
    ext id
    rw [Set.mem_ofPred_eq, DenseMap.mem_keys, holds.lookup, ← same, Finset.mem_coe]
  refine ⟨?_, hcount, ?_, ?_, ?_, holds.keys_eq_sort same, s.keys_ascending, ?_, ?_⟩
  · intro id
    rw [contains, holds.get?]
    show Except.ok (mark members id).isSome = _
    rw [isSome_mark]
  · rw [DenseMap.isEmpty, beq_iff_eq, hcount, Finset.card_eq_zero]
  · intro id
    rw [least?, head?_eq_some_iff_isLeast s.keys_ascending, hkeys]
  · intro id
    rw [greatest?, getLast?_eq_some_iff_isGreatest s.keys_ascending, hkeys]
  · intro id
    rcases Nat.lt_or_ge limit (s.sizeFor id) with long | fits
    · exact .inr (add_of_lt long)
    · exact .inl ⟨_, add_of_le holds fits⟩
  · intro id
    obtain ⟨s', hrun, -⟩ := exists_remove holds id
    exact ⟨s', hrun⟩

theorem same_iff {s' : DenseSet} {members' : Finset Nat} (shows : s.Shows members)
    (shows' : s'.Shows members') : s.same s' = true ↔ members = members' := by
  rw [same, Bool.and_eq_true, beq_iff_eq, beq_iff_eq, shows.count, shows'.count, shows.keys,
    shows'.keys]
  constructor
  · rintro ⟨-, hkeys⟩
    rw [← Finset.sort_toFinset members (· ≤ ·), hkeys, Finset.sort_toFinset]
  · rintro rfl
    exact ⟨rfl, rfl⟩

end Members

/-! ### Histories of sets -/

/-- The operations by which a set was made. A union takes in a set with a history of its own. -/
inductive History where
  | empty
  | add (before : History) (id : Nat)
  | remove (before : History) (id : Nat)
  | clear (before : History)
  | addAll (before : History) (ids : List Nat)
  | union (before other : History)

namespace History

/-- The operations on a dense set. -/
def run : History → Checked DenseSet
  | empty => .ok .empty
  | add h id => do pure (← (← h.run).add id).2
  | remove h id => do pure (← DenseSet.remove (← h.run) id).2
  | clear h => do pure (← h.run).clear
  | addAll h ids => do (← h.run).addAll ids
  | union h other => do (← h.run).union (← other.run)

/-- The same operations on a finite set. -/
def members : History → Finset Nat
  | empty => ∅
  | add h id => insert id h.members
  | remove h id => h.members.erase id
  | clear _ => ∅
  | addAll h ids => h.members ∪ ids.toFinset
  | union h other => h.members ∪ other.members

/-- The same operations on a set that is listed in ascending order. -/
def idSet : History → IdSet
  | empty => .empty
  | add h id => h.idSet.add id
  | remove h id => h.idSet.erase id
  | clear _ => .empty
  | addAll h ids => h.idSet.addAll ids
  | union h other => h.idSet.union other.idSet

/-- The ids that were added since the row was given up last. -/
def ids : History → List Nat
  | empty | clear _ => []
  | add h id => id :: h.ids
  | remove h _ => h.ids
  | addAll h ids => ids ++ h.ids
  | union h other => other.ids ++ h.ids

/-- At no time are ids added that are too far apart. -/
def IsNarrow : History → Prop
  | empty => True
  | add h id => h.IsNarrow ∧ DenseMap.IsNarrow (id :: h.ids)
  | remove h _ | clear h => h.IsNarrow
  | addAll h ids => h.IsNarrow ∧ DenseMap.IsNarrow (ids ++ h.ids)
  | union h other => h.IsNarrow ∧ other.IsNarrow ∧ DenseMap.IsNarrow (other.ids ++ h.ids)

theorem mem_ids_of_mem_members {h : History} {id : Nat} (hid : id ∈ h.members) : id ∈ h.ids := by
  induction h with
  | empty => simp [members] at hid
  | add h i ih =>
    rcases Finset.mem_insert.1 hid with rfl | hid
    · exact List.mem_cons_self
    · exact List.mem_cons_of_mem _ (ih hid)
  | remove h i ih => exact ih (Finset.mem_of_mem_erase hid)
  | clear h ih => simp [members] at hid
  | addAll h ids ih =>
    rcases Finset.mem_union.1 hid with hid | hid
    · exact List.mem_append_right _ (ih hid)
    · exact List.mem_append_left _ (List.mem_toFinset.1 hid)
  | union h other ih ih' =>
    rcases Finset.mem_union.1 hid with hid | hid
    · exact List.mem_append_right _ (ih hid)
    · exact List.mem_append_left _ (ih' hid)

/-- What is known of a row with a history. -/
structure Reaches (h : History) (s : DenseSet) : Prop where
  holds : Holds s (mark h.members)
  reach : ∀ bound, (∀ id ∈ h.ids, id < bound) → s.reach ≤ 2 * bound
  fits : ∀ lo hi, (∀ id ∈ h.ids, lo ≤ id ∧ id < hi) → FitsIn s lo hi

theorem reaches_empty (h : History) (hmembers : h.members = ∅) : h.Reaches .empty where
  holds := by
    rw [hmembers]
    exact DenseMap.holds_empty
  reach _ _ := Nat.zero_le _
  fits lo hi _ := DenseMap.fitsIn_empty lo hi

/-- A row with more ids added to it, from a list or from another set. -/
theorem Reaches.addAll_cases {h g : History} (reaches : h.Reaches s) {ids : List Nat}
    (hmembers : g.members = h.members ∪ ids.toFinset)
    (hold : ∀ id ∈ h.ids, id ∈ g.ids)
    (hnew : ∀ id ∈ ids, id ∈ g.ids) :
    (s.addAll ids = .error .rowTooLong ∧ ¬DenseMap.IsNarrow g.ids) ∨
      ∃ s', s.addAll ids = .ok s' ∧ g.Reaches s' := by
  rcases DenseSet.addAll_cases reaches.holds ids with
    ⟨hrun, wide⟩ | ⟨s', hrun, holds, hreach, hfits⟩
  · refine .inl ⟨hrun, fun narrow => ?_⟩
    obtain ⟨lo, hi, hlimit, hbounds⟩ := narrow.exists_bounds
    have fits := reaches.fits lo hi fun id hid => hbounds id (hold id hid)
    exact wide lo hi fits (fun id hid => hbounds id (hnew id hid)) hlimit
  · refine .inr ⟨s', hrun, hmembers ▸ holds, fun bound hbound => ?_, fun lo hi hbounds => ?_⟩
    · exact hreach bound (fun id hid => hbound id (hnew id hid))
        (reaches.reach bound fun id hid => hbound id (hold id hid))
    · exact hfits lo hi (fun id hid => hbounds id (hnew id hid))
        (reaches.fits lo hi fun id hid => hbounds id (hold id hid))

/-- **A history can be run**, and the row holds the finite set with that history, unless ids that
are too far apart make the row too long. -/
theorem run_cases (h : History) :
    (h.run = .error .rowTooLong ∧ ¬h.IsNarrow) ∨ ∃ s, h.run = .ok s ∧ h.Reaches s := by
  induction h with
  | empty => exact .inr ⟨_, rfl, reaches_empty _ rfl⟩
  | add h id ih =>
    rcases ih with ⟨hrun, wide⟩ | ⟨s, hrun, reaches⟩
    · refine .inl ⟨?_, fun narrow => wide narrow.1⟩
      rw [run, hrun]
      rfl
    · have hstep : (h.add id).run = s.addAll [id] := by
        rw [run, hrun, DenseSet.addAll, List.foldlM_cons]
        exact (bind_pure _).symm
      rw [hstep]
      refine (reaches.addAll_cases (g := h.add id) ?_ ?_ ?_).imp_left ?_
      · exact (Finset.insert_eq id h.members).trans (Finset.union_comm _ _)
      · exact fun i hi => List.mem_cons_of_mem id hi
      · exact fun i hi => List.mem_singleton.1 hi ▸ List.mem_cons_self
      · exact fun ⟨herror, wide⟩ => ⟨herror, fun narrow => wide narrow.2⟩
  | remove h id ih =>
    rcases ih with ⟨hrun, wide⟩ | ⟨s, hrun, reaches⟩
    · refine .inl ⟨?_, wide⟩
      rw [run, hrun]
      rfl
    · obtain ⟨s', hrun', holds', hrow⟩ := exists_remove reaches.holds id
      refine .inr ⟨s', ?_, holds', ?_, ?_⟩
      · rw [run, hrun]
        show (DenseSet.remove s id >>= _) = _
        rw [hrun']
        rfl
      · exact fun bound hbound => hrow.reach_eq ▸ reaches.reach bound hbound
      · exact fun lo hi hbounds => hrow.fitsIn (reaches.fits lo hi hbounds)
  | clear h ih =>
    rcases ih with ⟨hrun, wide⟩ | ⟨s, hrun, -⟩
    · refine .inl ⟨?_, wide⟩
      rw [run, hrun]
      rfl
    · refine .inr ⟨.empty, ?_, reaches_empty _ rfl⟩
      rw [run, hrun]
      rfl
  | addAll h ids ih =>
    rcases ih with ⟨hrun, wide⟩ | ⟨s, hrun, reaches⟩
    · refine .inl ⟨?_, fun narrow => wide narrow.1⟩
      rw [run, hrun]
      rfl
    · have hstep : (h.addAll ids).run = s.addAll ids := by
        rw [run, hrun]
        rfl
      rw [hstep]
      refine (reaches.addAll_cases (g := h.addAll ids) rfl ?_ ?_).imp_left ?_
      · exact fun id hid => List.mem_append_right _ hid
      · exact fun id hid => List.mem_append_left _ hid
      · exact fun ⟨herror, wide⟩ => ⟨herror, fun narrow => wide narrow.2⟩
  | union h other ih ih' =>
    rcases ih with ⟨hrun, wide⟩ | ⟨s, hrun, reaches⟩
    · refine .inl ⟨?_, fun narrow => wide narrow.1⟩
      rw [run, hrun]
      rfl
    · rcases ih' with ⟨hrun', wide⟩ | ⟨t, hrun', reaches'⟩
      · refine .inl ⟨?_, fun narrow => wide narrow.2.1⟩
        rw [run, hrun, hrun']
        rfl
      · have hstep : (h.union other).run = s.addAll t.keys := by
          rw [run, hrun, hrun']
          rfl
        have same (id : Nat) : id ∈ other.members ↔ (mark other.members id).isSome = true := by
          rw [isSome_mark, decide_eq_true_eq]
        have hkeys := reaches'.holds.toFinset_keys same
        rw [hstep]
        refine (reaches.addAll_cases (g := h.union other) ?_ ?_ ?_).imp_left ?_
        · rw [hkeys]
          rfl
        · exact fun id hid => List.mem_append_right _ hid
        · intro id hid
          rw [← List.mem_toFinset, hkeys] at hid
          exact List.mem_append_left _ (mem_ids_of_mem_members hid)
        · exact fun ⟨herror, wide⟩ => ⟨herror, fun narrow => wide narrow.2.2⟩

theorem contains_idSet (h : History) (id : Nat) :
    h.idSet.contains id = true ↔ id ∈ h.members := by
  induction h generalizing id with
  | empty => simp [idSet, members]
  | add h i ih => rw [idSet, IdSet.contains_add, ih, members, Finset.mem_insert]
  | remove h i ih =>
    rw [idSet, IdMap.contains, IdMap.get?_erase, members, Finset.mem_erase, ← ih, IdMap.contains]
    by_cases hi : id = i
    · simp [hi]
    · simp [hi]
  | clear h ih => simp [idSet, members]
  | addAll h ids ih =>
    rw [idSet, IdSet.contains_addAll, ih, members, Finset.mem_union, List.mem_toFinset, or_comm]
  | union h other ih ih' =>
    rw [idSet, IdSet.contains_union, ih, ih', members, Finset.mem_union]

theorem toIdMap_eq {h : History} (holds : Holds s (mark h.members)) : s.toIdMap = h.idSet := by
  refine IdMap.ext_get? fun id => ?_
  have hsome : (h.idSet.get? id).isSome = decide (id ∈ h.members) := by
    rw [Bool.eq_iff_iff, decide_eq_true_eq]
    exact h.contains_idSet id
  rw [DenseMap.get?_toIdMap, holds.lookup]
  rw [← isSome_mark] at hsome
  cases hmark : mark h.members id with
  | none =>
    rw [hmark] at hsome
    exact (Option.not_isSome_iff_eq_none.1 (by simp [hsome])).symm
  | some _ =>
    rw [hmark] at hsome
    obtain ⟨⟨⟩, hget⟩ := Option.isSome_iff_exists.1 hsome
    exact hget.symm

end History

end DenseSet

/-- **Dense maps and sets answer like finite maps and sets.** Whatever operations a map or a set was
made by, they succeed if at no time ids are bound that are too far apart, and otherwise fail at most
because the row would be too long. If they succeed then everything that can be seen of the map or
the set, also the answers to the next operation, is as in the finite map or the finite set made by
the same operations; it has the entries of the map that is listed in ascending order. If all ids are
below a bound, the row ends below twice that bound. Two sets are the same if and only if they have
the same members. -/
theorem DenseMap.histories_show :
    (∀ (β : Type) (h : DenseMap.History β),
      (h.IsNarrow → ∃ m, h.run = .ok m) ∧ (∀ cause, h.run = .error cause → cause = .rowTooLong) ∧
      ∀ m, h.run = .ok m → m.Shows h.finmap ∧ m.entries = h.idMap.entries ∧
        ∀ bound, (∀ id ∈ h.ids, id < bound) → m.offset + m.slots.size ≤ 2 * bound) ∧
    (∀ h : DenseSet.History,
      (h.IsNarrow → ∃ s, h.run = .ok s) ∧ (∀ cause, h.run = .error cause → cause = .rowTooLong) ∧
      ∀ s, h.run = .ok s → s.Shows h.members ∧ s.entries = h.idSet.entries ∧
        ∀ bound, (∀ id ∈ h.ids, id < bound) → s.offset + s.slots.size ≤ 2 * bound) ∧
    (∀ (h h' : DenseSet.History) (s s' : DenseSet), h.run = .ok s → h'.run = .ok s' →
      (s.same s' = true ↔ h.members = h'.members)) := by
  have reachesMap {β : Type} {h : DenseMap.History β} {m : DenseMap β} (hrun : h.run = .ok m) :
      h.Reaches m := by
    rcases h.run_cases with ⟨herror, -⟩ | ⟨m', hrun', reaches⟩
    · cases herror.symm.trans hrun
    · cases hrun'.symm.trans hrun
      exact reaches
  have reachesSet {h : DenseSet.History} {s : DenseSet} (hrun : h.run = .ok s) : h.Reaches s := by
    rcases h.run_cases with ⟨herror, -⟩ | ⟨s', hrun', reaches⟩
    · cases herror.symm.trans hrun
    · cases hrun'.symm.trans hrun
      exact reaches
  refine ⟨fun β h => ⟨fun narrow => ?_, fun cause herror => ?_, fun m hrun => ?_⟩,
    fun h => ⟨fun narrow => ?_, fun cause herror => ?_, fun s hrun => ?_⟩,
    fun h h' s s' hrun hrun' => ?_⟩
  · obtain ⟨m, hrun, -⟩ := h.run_cases.resolve_left fun hwide => hwide.2 narrow
    exact ⟨m, hrun⟩
  · rcases h.run_cases with ⟨herror', -⟩ | ⟨m, hrun, -⟩
    · cases herror'.symm.trans herror
      rfl
    · cases hrun.symm.trans herror
  · have reaches := reachesMap hrun
    have hentries : m.toIdMap = h.idMap := IdMap.ext_get? fun id => by
      rw [get?_toIdMap, reaches.holds.lookup, h.get?_idMap]
    exact ⟨reaches.holds.shows, congrArg IdMap.entries hentries, reaches.reach⟩
  · obtain ⟨s, hrun, -⟩ := h.run_cases.resolve_left fun hwide => hwide.2 narrow
    exact ⟨s, hrun⟩
  · rcases h.run_cases with ⟨herror', -⟩ | ⟨s, hrun, -⟩
    · cases herror'.symm.trans herror
      rfl
    · cases hrun.symm.trans herror
  · have reaches := reachesSet hrun
    have hentries := DenseSet.History.toIdMap_eq reaches.holds
    exact ⟨DenseSet.shows_of_holds reaches.holds, congrArg IdMap.entries hentries, reaches.reach⟩
  · exact DenseSet.same_iff (DenseSet.shows_of_holds (reachesSet hrun).holds)
      (DenseSet.shows_of_holds (reachesSet hrun').holds)

/-- A row that grew at both ends, and one that was once longer: the same set in different rows. -/
theorem DenseMap.histories_show_regrown :
    ∃ s s' : DenseSet,
      ((DenseSet.History.empty.addAll [4, 1, 9]).remove 4).run = .ok s ∧
      ((DenseSet.History.empty.addAll [1, 9, 12]).remove 12).run = .ok s' ∧
      s.count = 2 ∧ s.contains 4 = .ok false ∧ s.least? = some 1 ∧ s.offset + s.slots.size ≤ 20 ∧
      s.slots.size = 9 ∧ s'.slots.size = 18 ∧ s.same s' = true := by
  obtain ⟨-, hsets, hsame⟩ := histories_show
  obtain ⟨hruns, -, hshows⟩ := hsets ((DenseSet.History.empty.addAll [4, 1, 9]).remove 4)
  obtain ⟨hruns', -⟩ := hsets ((DenseSet.History.empty.addAll [1, 9, 12]).remove 12)
  obtain ⟨s, hrun⟩ := hruns ⟨trivial, by decide⟩
  obtain ⟨s', hrun'⟩ := hruns' ⟨trivial, by decide⟩
  obtain ⟨hshows, -, hreach⟩ := hshows s hrun
  have hsize (h : DenseSet.History) (t : DenseSet) (ht : h.run = .ok t) :
      some t.slots.size = h.run.toOption.map fun t => t.slots.size := by
    rw [ht]
    rfl
  refine ⟨s, s', hrun, hrun', ?_, ?_, ?_, hreach 10 (by decide), ?_, ?_, ?_⟩
  · rw [hshows.count]
    decide
  · rw [hshows.contains]
    decide
  · rw [hshows.least]
    have hle : ∀ id ∈ ((DenseSet.History.empty.addAll [4, 1, 9]).remove 4).members, 1 ≤ id := by
      decide
    exact ⟨by decide, fun id hid => hle id (Finset.mem_coe.1 hid)⟩
  · exact Option.some_inj.1 ((hsize _ s hrun).trans (by decide +kernel))
  · exact Option.some_inj.1 ((hsize _ s' hrun').trans (by decide +kernel))
  · exact (hsame _ _ s s' hrun hrun').2 (by decide)

/-- The least and the greatest number that a word has room for do not fit into one row. -/
theorem DenseMap.histories_show_not_apart :
    0xFFFFFFFFFFFFFFFF < UInt64.size ∧
      ((DenseSet.History.empty.add 0).add 0xFFFFFFFFFFFFFFFF).run = .error .rowTooLong ∧
      ((DenseMap.History.empty.insert 0 "a").insert 0xFFFFFFFFFFFFFFFF "b").run =
        .error .rowTooLong := by
  exact ⟨by decide, rfl, rfl⟩

end Equational
