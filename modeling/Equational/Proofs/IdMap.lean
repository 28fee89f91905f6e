import Equational.IdMap

/-!
# What a finite map holds

A finite map is known by what it gives for each id. The first lemmas say this for every
way of building one; those on sets say which ids are members, and what the least and the
greatest member are. Entries are ascending, so a lookup never meets an id twice.
-/

namespace Equational

namespace IdMap

variable {β : Type}

/-! ### Lookup -/

@[simp] theorem get?_empty (id : Nat) : (empty : IdMap β).get? id = none := rfl

theorem lookup_entry (entry : Nat × β) (rest : List (Nat × β)) (i : Nat) :
    (entry :: rest).lookup i = if i = entry.1 then some entry.2 else rest.lookup i := by
  obtain ⟨key, value⟩ := entry
  by_cases hi : i = key
  · simp [hi]
  · simp [List.lookup_cons, hi, beq_false_of_ne hi]

theorem lookup_insertEntry (id : Nat) (value : β) (i : Nat) (entries : List (Nat × β)) :
    (insertEntry id value entries).lookup i =
      if i = id then some value else entries.lookup i := by
  induction entries with
  | nil => rw [insertEntry, lookup_entry]
  | cons head rest ih =>
    unfold insertEntry
    split
    next hlt => rw [lookup_entry]
    next hge =>
      split
      next heq =>
        rw [lookup_entry, lookup_entry, ← heq]
        by_cases hi : i = id
        · simp [hi]
        · simp [hi]
      next hne =>
        rw [lookup_entry, lookup_entry, ih]
        by_cases hi : i = head.1
        · have hid : i ≠ id := fun h => hne (h.symm.trans hi)
          rw [if_pos hi, if_neg hid, if_pos hi]
        · simp [hi]

theorem get?_insert (m : IdMap β) (id : Nat) (value : β) (i : Nat) :
    (m.insert id value).get? i = if i = id then some value else m.get? i :=
  lookup_insertEntry id value i m.entries

@[simp] theorem get?_insert_self (m : IdMap β) (id : Nat) (value : β) :
    (m.insert id value).get? id = some value := by
  rw [get?_insert, if_pos rfl]

theorem get?_insert_of_ne (m : IdMap β) {id : Nat} (value : β) {i : Nat} (h : i ≠ id) :
    (m.insert id value).get? i = m.get? i := by
  rw [get?_insert, if_neg h]

theorem contains_insert (m : IdMap β) (id : Nat) (value : β) (i : Nat) :
    (m.insert id value).contains i = true ↔ i = id ∨ m.contains i = true := by
  unfold contains
  rw [get?_insert]
  by_cases hi : i = id
  · simp [hi]
  · simp [hi]

theorem contains_iff (m : IdMap β) (id : Nat) :
    m.contains id = true ↔ ∃ value, m.get? id = some value := by
  simp [contains, Option.isSome_iff_exists]

@[simp] theorem contains_empty (id : Nat) : (empty : IdMap β).contains id = false := rfl

/-! ### Changed values -/

variable {γ : Type}

theorem lookup_map (f : β → γ) (id : Nat) (entries : List (Nat × β)) :
    (entries.map fun entry => (entry.1, f entry.2)).lookup id = (entries.lookup id).map f := by
  induction entries with
  | nil => rfl
  | cons entry entries ih =>
    rw [List.map_cons, lookup_entry, lookup_entry, ih]
    by_cases hid : id = entry.1
    · simp [hid]
    · simp [hid]

theorem get?_map (f : β → γ) (m : IdMap β) (id : Nat) : (m.map f).get? id = (m.get? id).map f :=
  lookup_map f id m.entries

@[simp] theorem contains_map (f : β → γ) (m : IdMap β) (id : Nat) :
    (m.map f).contains id = m.contains id := by
  rw [contains, get?_map, Option.isSome_map, contains]

theorem map_insertEntry (f : β → γ) (id : Nat) (value : β) (entries : List (Nat × β)) :
    (insertEntry id value entries).map (fun entry => (entry.1, f entry.2)) =
      insertEntry id (f value) (entries.map fun entry => (entry.1, f entry.2)) := by
  induction entries with
  | nil => rfl
  | cons head rest ih =>
    simp only [insertEntry, List.map_cons]
    split
    · rfl
    · split
      · rfl
      · rw [List.map_cons, ih]

theorem map_insert (f : β → γ) (m : IdMap β) (id : Nat) (value : β) :
    (m.insert id value).map f = (m.map f).insert id (f value) := by
  simp only [insert, map, mk.injEq]
  exact map_insertEntry f id value m.entries

/-! ### Keys -/

theorem mem_keys (m : IdMap β) (id : Nat) : id ∈ m.keys ↔ m.contains id = true := by
  simp only [keys, contains, get?, List.lookup_isSome_iff, List.mem_map, Prod.exists]
  constructor
  · rintro ⟨a, b, hmem, rfl⟩
    exact ⟨a, b, hmem, by simp⟩
  · rintro ⟨a, b, hmem, heq⟩
    exact ⟨a, b, hmem, (by simpa using heq : id = a).symm⟩

theorem keys_ascending (m : IdMap β) : m.keys.Pairwise (· < ·) := by
  rw [keys, List.pairwise_map]
  exact m.ascending

end IdMap

namespace IdSet

/-! ### Members of a set -/

theorem contains_add (s : IdSet) (id i : Nat) :
    (s.add id).contains i = true ↔ i = id ∨ s.contains i = true :=
  s.contains_insert id () i

theorem contains_addAll (s : IdSet) (ids : List Nat) (i : Nat) :
    (s.addAll ids).contains i = true ↔ i ∈ ids ∨ s.contains i = true := by
  induction ids generalizing s with
  | nil => simp [addAll]
  | cons id ids ih =>
    have h := ih (s.add id)
    rw [contains_add] at h
    rw [addAll, List.foldl_cons]
    rw [addAll] at h
    rw [h, List.mem_cons, or_assoc, or_left_comm]

theorem contains_ofIds (ids : List Nat) (i : Nat) :
    (ofIds ids).contains i = true ↔ i ∈ ids := by
  rw [ofIds, contains_addAll]
  simp

theorem contains_union (s t : IdSet) (i : Nat) :
    (s.union t).contains i = true ↔ s.contains i = true ∨ t.contains i = true := by
  rw [union, contains_addAll, IdMap.mem_keys]
  exact or_comm

/-! ### Least and greatest member -/

theorem least?_eq_none (s : IdSet) (h : s.least? = none) (id : Nat) : s.contains id = false := by
  have hkeys : s.keys = [] := List.head?_eq_none_iff.1 h
  have hmem : id ∉ s.keys := by simp [hkeys]
  rw [IdMap.mem_keys] at hmem
  simpa using hmem

theorem least?_le (s : IdSet) {least : Nat} (h : s.least? = some least) {id : Nat}
    (hid : s.contains id = true) : least ≤ id := by
  obtain ⟨rest, hkeys⟩ := List.head?_eq_some_iff.1 h
  have hasc := s.keys_ascending
  rw [hkeys] at hasc
  have hmem := (s.mem_keys id).2 hid
  rw [hkeys] at hmem
  rcases List.mem_cons.1 hmem with rfl | hmem
  · exact Nat.le_refl _
  · exact Nat.le_of_lt ((List.pairwise_cons.1 hasc).1 id hmem)

theorem le_greatest? (s : IdSet) {greatest : Nat} (h : s.greatest? = some greatest) {id : Nat}
    (hid : s.contains id = true) : id ≤ greatest := by
  obtain ⟨front, hkeys⟩ := List.getLast?_eq_some_iff.1 h
  have hasc := s.keys_ascending
  rw [hkeys] at hasc
  have hmem := (s.mem_keys id).2 hid
  rw [hkeys] at hmem
  rcases List.mem_append.1 hmem with hmem | hmem
  · exact Nat.le_of_lt ((List.pairwise_append.1 hasc).2.2 id hmem greatest (by simp))
  · exact Nat.le_of_eq (by simpa using hmem)

theorem contains_greatest? (s : IdSet) {greatest : Nat} (h : s.greatest? = some greatest) :
    s.contains greatest = true :=
  (s.mem_keys greatest).1 (List.mem_of_getLast? h)

theorem greatest?_eq_none (s : IdSet) (h : s.greatest? = none) (id : Nat) :
    s.contains id = false := by
  have hkeys : s.keys = [] := List.getLast?_eq_none_iff.1 h
  have hmem : id ∉ s.keys := by simp [hkeys]
  rw [IdMap.mem_keys] at hmem
  simpa using hmem

end IdSet

end Equational
