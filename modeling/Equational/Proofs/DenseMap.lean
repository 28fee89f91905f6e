import Equational.IdMap.Dense
import Equational.Proofs.IdMap
import Mathlib.Data.Finmap
import Mathlib.Data.Finset.Sort

/-!
# Dense maps hold what was put into them

The same entries can stand in many rows: a row may begin anywhere below its first entry, end
anywhere above its last one and have empty slots between. `DenseMap.Holds` says what matters of a
row, namely what it has for each id and that the count is the number of its entries. Every operation
on such a row leaves one (`Holds.bound`, `Holds.remove`, `Holds.modify`), and only a row that would
get too long is a reason to fail (`insert_of_le`, `insert_of_lt`).

How long a row gets depends on the order in which ids are bound, but it is never twice as long as
the ids are apart (`FitsIn.sizeFor_le`). So a history can be run if its ids are never too far apart,
and the row then holds the finite map with that history (`History.run_cases`).
-/

namespace Equational

/-! ### Finite maps that give the same values -/

namespace IdMap

variable {β : Type}

theorem get?_eq_some_iff (m : IdMap β) {id : Nat} {value : β} :
    m.get? id = some value ↔ (id, value) ∈ m.entries := by
  obtain ⟨entries, ascending⟩ := m
  show entries.lookup id = some value ↔ (id, value) ∈ entries
  induction entries with
  | nil => simp
  | cons entry entries ih =>
    obtain ⟨hfirst, hrest⟩ := List.pairwise_cons.1 ascending
    rw [lookup_entry, List.mem_cons]
    by_cases hid : id = entry.1
    · rw [if_pos hid, Option.some_inj]
      constructor
      · rintro rfl
        exact .inl (Prod.ext hid rfl)
      · rintro (heq | hmem)
        · rw [← heq]
        · exact absurd (hfirst _ hmem) (by simp [hid])
    · rw [if_neg hid, ih hrest]
      refine ⟨.inr, fun h => h.resolve_left ?_⟩
      rintro rfl
      exact hid rfl

theorem ext_get? {m m' : IdMap β} (h : ∀ id, m.get? id = m'.get? id) : m = m' := by
  have hmem (entry : Nat × β) : entry ∈ m.entries ↔ entry ∈ m'.entries := by
    rw [← get?_eq_some_iff, h, get?_eq_some_iff]
  have hentries : m.entries = m'.entries := by
    have nodup (m : IdMap β) : m.entries.Nodup := m.ascending.imp fun hlt heq => by
      rw [heq] at hlt
      exact Nat.lt_irrefl _ hlt
    apply List.Perm.eq_of_pairwise ?_ m.ascending m'.ascending
    · exact (List.perm_ext_iff_of_nodup (nodup m) (nodup m')).2 hmem
    · intro a b _ _ hab hba
      exact absurd hab (Nat.lt_asymm hba)
  cases m
  cases m'
  cases hentries
  rfl

theorem get?_erase (m : IdMap β) (id i : Nat) :
    (m.erase id).get? i = if i = id then none else m.get? i := by
  refine Option.ext fun value => ?_
  rw [get?_eq_some_iff, erase]
  simp only [List.mem_filter, bne_iff_ne, ne_eq, ← get?_eq_some_iff]
  by_cases hi : i = id
  · simp [hi]
  · simp [hi]

theorem get?_modify (m : IdMap β) (id : Nat) (f : β → β) (i : Nat) :
    (m.modify id f).get? i = if i = id then (m.get? id).map f else m.get? i := by
  unfold modify
  cases hid : m.get? id with
  | none =>
    by_cases hi : i = id
    · simp [hi, hid]
    · simp [hi]
  | some value =>
    show (m.insert id (f value)).get? i = _
    rw [get?_insert, Option.map_some]

end IdMap

namespace DenseMap

variable {β : Type} {m : DenseMap β}

/-! ### The entries of a row -/

theorem mem_entriesFrom {first id : Nat} {value : β} {slots : List (Option β)} :
    (id, value) ∈ entriesFrom first slots ↔
      first ≤ id ∧ slots[id - first]? = some (some value) := by
  induction slots generalizing first with
  | nil => simp [entriesFrom]
  | cons slot slots ih =>
    -- an id is that of the first slot, or belongs to the slots after it
    have hstep : (first ≤ id ∧ (slot :: slots)[id - first]? = some (some value)) ↔
        (id = first ∧ slot = some value) ∨
          (first + 1 ≤ id ∧ slots[id - (first + 1)]? = some (some value)) := by
      rcases Nat.lt_trichotomy id first with hlt | rfl | hlt
      · have hnot : ¬first ≤ id := by omega
        have hne : id ≠ first := by omega
        have hnot' : ¬first + 1 ≤ id := by omega
        simp [hnot, hne, hnot']
      · simp
      · obtain ⟨k, rfl⟩ : ∃ k, id = first + 1 + k := ⟨id - (first + 1), by omega⟩
        have hsub : first + 1 + k - first = k + 1 := by omega
        have hsub' : first + 1 + k - (first + 1) = k := by omega
        have hne : first + 1 + k ≠ first := by omega
        have hle : first ≤ first + 1 + k := by omega
        simp [hsub, hsub', hne, hle]
    rw [hstep, ← ih]
    cases slot with
    | none => simp [entriesFrom]
    | some v => simp [entriesFrom, eq_comm]

theorem pairwise_entriesFrom (first : Nat) (slots : List (Option β)) :
    (entriesFrom first slots).Pairwise fun a b => a.1 < b.1 := by
  induction slots generalizing first with
  | nil => exact .nil
  | cons slot slots ih =>
    cases slot with
    | none => exact ih (first + 1)
    | some value =>
      refine List.pairwise_cons.2 ⟨fun entry hentry => ?_, ih (first + 1)⟩
      exact (mem_entriesFrom.1 hentry).1

theorem entriesFrom_append (first : Nat) (slots slots' : List (Option β)) :
    entriesFrom first (slots ++ slots') =
      entriesFrom first slots ++ entriesFrom (first + slots.length) slots' := by
  induction slots generalizing first with
  | nil => rfl
  | cons slot slots ih =>
    have hlength : first + (slots.length + 1) = first + 1 + slots.length := by omega
    cases slot with
    | none => simp [entriesFrom, ih, hlength]
    | some value => simp [entriesFrom, ih, hlength]

@[simp] theorem entriesFrom_replicate (first n : Nat) :
    entriesFrom first (List.replicate n (none : Option β)) = [] := by
  induction n generalizing first with
  | zero => rfl
  | succ n ih => exact ih (first + 1)

theorem lookup_eq_some_iff {id : Nat} {value : β} :
    m.lookup id = some value ↔ (id, value) ∈ m.entries := by
  rw [entries, mem_entriesFrom, Array.getElem?_toList, lookup]
  by_cases h : m.offset ≤ id
  · simp [h, Option.join_eq_some_iff]
  · simp [h]

/-- The finite map with the same entries. -/
def toIdMap (m : DenseMap β) : IdMap β := ⟨m.entries, pairwise_entriesFrom _ _⟩

@[simp] theorem get?_toIdMap (m : DenseMap β) (id : Nat) : m.toIdMap.get? id = m.lookup id := by
  refine Option.ext fun value => ?_
  rw [IdMap.get?_eq_some_iff, lookup_eq_some_iff]
  rfl

/-! ### Rows that reach an id -/

/-- The id has a slot in the row. -/
def Covers (m : DenseMap β) (id : Nat) : Prop := m.offset ≤ id ∧ id - m.offset < m.slots.size

theorem slot?_of_covers {id : Nat} (covers : m.Covers id) :
    m.slot? id = some (id - m.offset) := by
  rw [slot?, if_neg (Nat.not_lt.2 covers.1), if_pos covers.2]

theorem slot?_of_not_covers {id : Nat} (h : ¬m.Covers id) : m.slot? id = none := by
  rw [slot?]
  split
  · rfl
  next hle =>
    split
    next hlt => exact absurd ⟨Nat.not_lt.1 hle, hlt⟩ h
    · rfl

theorem lookup_of_not_covers {id : Nat} (h : ¬m.Covers id) : m.lookup id = none := by
  rw [lookup]
  split
  next hle =>
    have hsize : m.slots.size ≤ id - m.offset := Nat.not_lt.1 fun hlt => h ⟨hle, hlt⟩
    rw [Array.getElem?_eq_none hsize]
    rfl
  · rfl

theorem size_pos_of_not_isEmpty (h : ¬m.slots.isEmpty = true) : 0 < m.slots.size := by
  refine Nat.pos_of_ne_zero fun hzero => h ?_
  rw [Array.size_eq_zero_iff.1 hzero]
  rfl

/-- The number of slots that is checked before the row is extended is the one it has then. -/
theorem size_extend (m : DenseMap β) (id : Nat) : (m.extend id).slots.size = m.sizeFor id := by
  unfold extend sizeFor
  split
  next => rfl
  next =>
    split
    next => simp only [Array.size_append, Array.size_replicate]
    next =>
      simp only [Array.size_append, Array.size_replicate]
      split
      next => omega
      next => omega

theorem offset_extend (m : DenseMap β) (id : Nat) :
    (m.extend id).offset = if m.slots.isEmpty then id else min id m.offset := by
  unfold extend
  split
  next => rfl
  next =>
    split
    next hlt => exact (Nat.min_eq_left (Nat.le_of_lt hlt)).symm
    next hle => exact (Nat.min_eq_right (Nat.not_lt.1 hle)).symm

theorem covers_extend (m : DenseMap β) (id : Nat) : (m.extend id).Covers id := by
  rw [Covers, size_extend, offset_extend, sizeFor]
  split
  next => omega
  next hne =>
    have hpos := size_pos_of_not_isEmpty hne
    split
    next => omega
    next =>
      split
      next => omega
      next => omega

theorem entries_extend (m : DenseMap β) (id : Nat) : (m.extend id).entries = m.entries := by
  unfold extend entries
  split
  next hempty =>
    rw [Array.isEmpty_iff.1 hempty]
    rfl
  next =>
    split
    next hlt =>
      have hoffset : id + (m.offset - id) = m.offset := by omega
      simp [entriesFrom_append, hoffset]
    next => simp [entriesFrom_append]

theorem count_extend (m : DenseMap β) (id : Nat) : (m.extend id).count = m.count := by
  unfold extend
  split
  · rfl
  · split
    · rfl
    · rfl

theorem reserve_of_le {id : Nat} (fits : m.sizeFor id ≤ limit) :
    m.reserve id = .ok (m.extend id) := by
  rw [reserve, require, if_pos (decide_eq_true fits)]
  rfl

theorem reserve_of_lt {id : Nat} (long : limit < m.sizeFor id) :
    m.reserve id = .error .rowTooLong := by
  rw [reserve, require, if_neg (by simpa using long)]
  rfl

/-- The id just above the row. -/
def reach (m : DenseMap β) : Nat := m.offset + m.slots.size

theorem reach_extend_le (m : DenseMap β) (id : Nat) :
    (m.extend id).reach ≤ max m.reach (2 * (id + 1)) := by
  rw [reach, reach, size_extend, offset_extend, sizeFor]
  split
  next => omega
  next =>
    split
    next => omega
    next =>
      split
      next => omega
      next => omega

/-! ### Rows within bounds -/

/-- The row begins at or above `lo`, and is not twice as long as what is left below `hi`. -/
def FitsIn (m : DenseMap β) (lo hi : Nat) : Prop :=
  m.slots.size = 0 ∨ lo ≤ m.offset ∧ m.offset < hi ∧ m.slots.size ≤ 2 * (hi - m.offset)

theorem fitsIn_empty (lo hi : Nat) : (empty : DenseMap β).FitsIn lo hi := .inl rfl

theorem FitsIn.mono {lo hi lo' hi' : Nat} (fits : m.FitsIn lo hi) (hlo : lo' ≤ lo)
    (hhi : hi ≤ hi') : m.FitsIn lo' hi' := by
  rcases fits with hempty | ⟨hoffset, hlt, hsize⟩
  · exact .inl hempty
  · exact .inr ⟨hlo.trans hoffset, hlt.trans_le hhi, by omega⟩

/-- An id within the bounds makes the row at most twice as long as the bounds are apart. -/
theorem FitsIn.sizeFor_le {lo hi id : Nat} (fits : m.FitsIn lo hi) (hlo : lo ≤ id) (hhi : id < hi) :
    m.sizeFor id ≤ 2 * (hi - lo) := by
  unfold sizeFor
  split
  next => omega
  next hne =>
    have hpos := size_pos_of_not_isEmpty hne
    obtain ⟨hoffset, hlt, hsize⟩ := fits.resolve_left hpos.ne'
    split
    next => omega
    next =>
      split
      next => omega
      next => omega

theorem FitsIn.extend {lo hi id : Nat} (fits : m.FitsIn lo hi) (hlo : lo ≤ id) (hhi : id < hi) :
    (m.extend id).FitsIn lo hi := by
  refine .inr ?_
  rw [size_extend, offset_extend, sizeFor]
  split
  next => omega
  next hne =>
    have hpos := size_pos_of_not_isEmpty hne
    obtain ⟨hoffset, hlt, hsize⟩ := fits.resolve_left hpos.ne'
    split
    next => omega
    next =>
      split
      next => omega
      next => omega

/-- No two of the ids are so far apart that a row might be too long for them. -/
def IsNarrow (ids : List Nat) : Prop := ∀ i ∈ ids, ∀ j ∈ ids, 2 * (j + 1 - i) ≤ limit

instance (ids : List Nat) : Decidable (IsNarrow ids) :=
  @List.decidableBAll _ _ (fun _ => List.decidableBAll _ ids) ids

theorem IsNarrow.mono {ids ids' : List Nat} (narrow : IsNarrow ids)
    (sub : ∀ id ∈ ids', id ∈ ids) : IsNarrow ids' :=
  fun i hi j hj => narrow i (sub i hi) j (sub j hj)

theorem IsNarrow.exists_bounds {ids : List Nat} (narrow : IsNarrow ids) :
    ∃ lo hi, 2 * (hi - lo) ≤ limit ∧ ∀ id ∈ ids, lo ≤ id ∧ id < hi := by
  cases hmin : ids.min? with
  | none =>
    rw [List.min?_eq_none_iff] at hmin
    subst hmin
    exact ⟨0, 0, Nat.zero_le _, by simp⟩
  | some lo =>
    cases hmax : ids.max? with
    | none =>
      rw [List.max?_eq_none_iff] at hmax
      simp [hmax] at hmin
    | some last =>
      obtain ⟨hlo, hle⟩ := List.min?_eq_some_iff.1 hmin
      obtain ⟨hlast, hge⟩ := List.max?_eq_some_iff.1 hmax
      refine ⟨lo, last + 1, narrow lo hlo last hlast, fun id hid => ⟨hle id hid, ?_⟩⟩
      exact Nat.lt_succ_of_le (hge id hid)

/-! ### Rows as finite maps -/

/-- The row has the given value for each id, and the count is the number of its entries. -/
structure Holds (m : DenseMap β) (f : Nat → Option β) : Prop where
  lookup : ∀ id, m.lookup id = f id
  count : m.count = m.entries.length

theorem holds_empty : (empty : DenseMap β).Holds fun _ => none where
  lookup id := by simp [DenseMap.lookup, empty]
  count := rfl

/-- The row with another value in the slot of an id. -/
def put (m : DenseMap β) (id : Nat) (value : Option β) : DenseMap β :=
  { m with slots := m.slots.setIfInBounds (id - m.offset) value }

theorem read_of_covers {id : Nat} (covers : m.Covers id) :
    m.read (id - m.offset) = .ok (m.lookup id) := by
  rw [read, lookup, if_pos covers.1, Array.getElem?_eq_getElem covers.2]
  rfl

theorem write_of_covers {id : Nat} (covers : m.Covers id) (value : Option β) :
    m.write (id - m.offset) value = .ok (m.put id value) := by
  rw [write, require, if_pos (decide_eq_true covers.2)]
  rfl

theorem lookup_put {id : Nat} (covers : m.Covers id) (value : Option β) (i : Nat) :
    (m.put id value).lookup i = if i = id then value else m.lookup i := by
  unfold lookup put
  by_cases hi : i = id
  · subst hi
    simp [covers.1, covers.2]
  · by_cases hle : m.offset ≤ i
    · have hne : id - m.offset ≠ i - m.offset := by
        have := covers.1
        omega
      simp [hi, hle, hne]
    · simp [hi, hle]

theorem length_entriesFrom_set {slots : List (Option β)} {i : Nat} {old : Option β}
    (found : slots[i]? = some old) (value : Option β) (first : Nat) :
    (entriesFrom first (slots.set i value)).length + old.toList.length =
      (entriesFrom first slots).length + value.toList.length := by
  induction slots generalizing i first with
  | nil => simp at found
  | cons slot slots ih =>
    cases i with
    | zero =>
      obtain rfl : slot = old := by simpa using found
      cases slot with
      | none => cases value <;> simp [entriesFrom]
      | some _ => cases value <;> simp [entriesFrom]
    | succ i =>
      have hrest := ih (i := i) (by simpa using found) (first + 1)
      cases slot with
      | none => simpa [entriesFrom] using hrest
      | some _ =>
        simp only [List.set_cons_succ, entriesFrom, List.length_cons]
        omega

theorem length_entries_put {id : Nat} (covers : m.Covers id) (value : Option β) :
    (m.put id value).entries.length + (m.lookup id).toList.length =
      m.entries.length + value.toList.length := by
  have found : m.slots.toList[id - m.offset]? = some (m.lookup id) := by
    rw [Array.getElem?_toList, lookup, if_pos covers.1, Array.getElem?_eq_getElem covers.2]
    rfl
  rw [entries, put, Array.toList_setIfInBounds]
  exact length_entriesFrom_set found value m.offset

/-- A value put into its slot, with the count brought up to date. -/
theorem Holds.put {f : Nat → Option β} (holds : m.Holds f) {id : Nat} (covers : m.Covers id)
    (value : Option β) {count : Nat}
    (counted : count + (f id).toList.length = m.count + value.toList.length) :
    ({ m.put id value with count } : DenseMap β).Holds (Function.update f id value) where
  lookup i := by
    show (m.put id value).lookup i = _
    rw [lookup_put covers, holds.lookup, Function.update_apply]
  count := by
    show count = (m.put id value).entries.length
    have hlength := length_entries_put covers value
    rw [holds.lookup, ← holds.count] at hlength
    omega

theorem Holds.extend {f : Nat → Option β} (holds : m.Holds f) (id : Nat) :
    (m.extend id).Holds f where
  lookup i := by
    rw [← holds.lookup i]
    refine Option.ext fun value => ?_
    rw [lookup_eq_some_iff, lookup_eq_some_iff, entries_extend]
  count := by rw [count_extend, entries_extend, holds.count]

/-! ### Operations -/

variable {f : Nat → Option β}

/-- The rows begin and end at the same ids. -/
def SameRow (m m' : DenseMap β) : Prop := m'.offset = m.offset ∧ m'.slots.size = m.slots.size

theorem SameRow.reach_eq {m' : DenseMap β} (same : m.SameRow m') : m'.reach = m.reach := by
  rw [reach, reach, same.1, same.2]

theorem SameRow.fitsIn {m' : DenseMap β} (same : m.SameRow m') {lo hi : Nat}
    (fits : m.FitsIn lo hi) : m'.FitsIn lo hi := by
  rw [FitsIn, same.1, same.2]
  exact fits

theorem get?_eq (m : DenseMap β) (id : Nat) : m.get? id = .ok (m.lookup id) := by
  rw [DenseMap.get?]
  by_cases covers : m.Covers id
  · rw [slot?_of_covers covers]
    exact read_of_covers covers
  · rw [slot?_of_not_covers covers, lookup_of_not_covers covers]
    rfl

theorem Holds.get? (holds : m.Holds f) (id : Nat) : m.get? id = .ok (f id) := by
  rw [get?_eq, holds.lookup]

theorem sizeFor_of_covers {id : Nat} (covers : m.Covers id) : m.sizeFor id = m.slots.size := by
  have hne : ¬m.slots.isEmpty = true := by
    intro hempty
    have hlt := covers.2
    simp [Array.isEmpty_iff.1 hempty] at hlt
  rw [sizeFor, if_neg hne, if_neg (Nat.not_lt.2 covers.1), if_neg (Nat.not_le.2 covers.2)]

theorem covers_of_lookup {id : Nat} {value : β} (bound : m.lookup id = some value) :
    m.Covers id := by
  by_contra h
  rw [lookup_of_not_covers h] at bound
  cases bound

/-- The row with a new value for an id. -/
def bound (m : DenseMap β) (id : Nat) (value : β) : DenseMap β :=
  { (m.extend id).put id (some value) with
    count := if (m.lookup id).isNone then m.count + 1 else m.count }

theorem lookup_extend (m : DenseMap β) (id i : Nat) : (m.extend id).lookup i = m.lookup i := by
  refine Option.ext fun value => ?_
  rw [lookup_eq_some_iff, lookup_eq_some_iff, entries_extend]

theorem insert_of_le {id : Nat} (fits : m.sizeFor id ≤ limit) (value : β) :
    m.insert id value = .ok (m.lookup id, m.bound id value) := by
  have covers := m.covers_extend id
  have hplace : (m.extend id).place id = .ok (id - (m.extend id).offset) := by
    rw [place, require, if_pos (decide_eq_true covers.1)]
    rfl
  rw [DenseMap.insert, reserve_of_le fits]
  show ((m.extend id).place id >>= _) = _
  rw [hplace]
  show ((m.extend id).read _ >>= _) = _
  rw [read_of_covers covers, lookup_extend]
  show ((m.extend id).write _ _ >>= _) = _
  rw [write_of_covers covers, bound, ← m.count_extend id]
  rfl

theorem insert_of_lt {id : Nat} (long : limit < m.sizeFor id) (value : β) :
    m.insert id value = .error .rowTooLong := by
  rw [DenseMap.insert, reserve_of_lt long]
  rfl

theorem insert_eq (m : DenseMap β) (id : Nat) (value : β) :
    m.insert id value =
      if m.sizeFor id ≤ limit then .ok (m.lookup id, m.bound id value) else .error .rowTooLong := by
  split
  next fits => exact insert_of_le fits value
  next long => exact insert_of_lt (Nat.not_le.1 long) value

theorem lookup_bound (m : DenseMap β) (id : Nat) (value : β) (i : Nat) :
    (m.bound id value).lookup i = if i = id then some value else m.lookup i := by
  rw [← m.lookup_extend id i]
  exact lookup_put (m.covers_extend id) (some value) i

theorem toIdMap_bound (m : DenseMap β) (id : Nat) (value : β) :
    (m.bound id value).toIdMap = m.toIdMap.insert id value := by
  refine IdMap.ext_get? fun i => ?_
  rw [get?_toIdMap, lookup_bound, IdMap.get?_insert, get?_toIdMap]

/-! ### The shape of a row -/

/-- The set of the ids that are bound, in a row of the same form. -/
def shape (m : DenseMap β) : DenseSet :=
  { offset := m.offset, slots := m.slots.map (Option.map fun _ => ()), count := m.count }

@[simp] theorem shape_empty : (empty : DenseMap β).shape = empty := by
  simp [shape, empty]

@[simp] theorem size_shape (m : DenseMap β) : m.shape.slots.size = m.slots.size := Array.size_map

theorem isEmpty_shape (m : DenseMap β) : m.shape.slots.isEmpty = m.slots.isEmpty := by
  simp [shape, Array.isEmpty]

@[simp] theorem sizeFor_shape (m : DenseMap β) (id : Nat) : m.shape.sizeFor id = m.sizeFor id := by
  rw [sizeFor, sizeFor, isEmpty_shape, size_shape]
  rfl

theorem lookup_shape (m : DenseMap β) (id : Nat) :
    m.shape.lookup id = (m.lookup id).map fun _ => () := by
  unfold lookup shape
  dsimp only
  split
  next =>
    rw [Array.getElem?_map]
    cases m.slots[id - m.offset]? with
    | none => rfl
    | some slot => rfl
  next => rfl

theorem shape_extend (m : DenseMap β) (id : Nat) : (m.extend id).shape = m.shape.extend id := by
  unfold extend
  rw [isEmpty_shape, sizeFor_shape, size_shape]
  split
  next => simp [shape]
  next =>
    show shape (if id < m.offset then _ else _) = if id < m.offset then _ else _
    split
    next => simp [shape]
    next => simp [shape]

/-- What a row looks like after an id was bound does not depend on the values. -/
theorem shape_bound (m : DenseMap β) (id : Nat) (value : β) :
    (m.bound id value).shape = m.shape.bound id () := by
  have hput : ((m.extend id).put id (some value)).shape = (m.extend id).shape.put id (some ()) := by
    simp [shape, DenseMap.put, Array.map_setIfInBounds]
  have hcount : (m.shape.lookup id).isNone = (m.lookup id).isNone := by
    rw [lookup_shape, Option.isNone_map]
  rw [bound, bound, hcount, ← shape_extend, ← hput]
  rfl

theorem Holds.bound (holds : m.Holds f) (id : Nat) (value : β) :
    (m.bound id value).Holds (Function.update f id (some value)) := by
  refine (holds.extend id).put (m.covers_extend id) _ ?_
  rw [holds.lookup, count_extend]
  cases f id with
  | none => rfl
  | some _ => rfl

theorem reach_bound_le (m : DenseMap β) (id : Nat) (value : β) :
    (m.bound id value).reach ≤ max m.reach (2 * (id + 1)) := by
  have hreach := m.reach_extend_le id
  simpa [reach, bound, DenseMap.put] using hreach

theorem FitsIn.bound {lo hi id : Nat} (fits : m.FitsIn lo hi) (hlo : lo ≤ id) (hhi : id < hi)
    (value : β) : (m.bound id value).FitsIn lo hi := by
  have hextend := fits.extend hlo hhi
  simpa [FitsIn, DenseMap.bound, DenseMap.put] using hextend

/-- The row and the ids lie between bounds that are near to each other. -/
def HasRoom (m : DenseMap β) (ids : List Nat) : Prop :=
  ∃ lo hi, 2 * (hi - lo) ≤ limit ∧ m.FitsIn lo hi ∧ ∀ id ∈ ids, lo ≤ id ∧ id < hi

theorem hasRoom_empty {ids : List Nat} (narrow : IsNarrow ids) :
    (empty : DenseMap β).HasRoom ids := by
  obtain ⟨lo, hi, near, within⟩ := narrow.exists_bounds
  exact ⟨lo, hi, near, fitsIn_empty lo hi, within⟩

theorem HasRoom.mono {ids ids' : List Nat} (room : m.HasRoom ids) (sub : ∀ id ∈ ids', id ∈ ids) :
    m.HasRoom ids' := by
  obtain ⟨lo, hi, near, fits, within⟩ := room
  exact ⟨lo, hi, near, fits, fun id hid => within id (sub id hid)⟩

theorem HasRoom.sizeFor_le {ids : List Nat} {id : Nat} (room : m.HasRoom ids) (hid : id ∈ ids) :
    m.sizeFor id ≤ limit := by
  obtain ⟨lo, hi, near, fits, within⟩ := room
  exact (fits.sizeFor_le (within id hid).1 (within id hid).2).trans near

theorem HasRoom.bound {ids : List Nat} {id : Nat} (room : m.HasRoom ids) (hid : id ∈ ids)
    (value : β) : (m.bound id value).HasRoom ids := by
  obtain ⟨lo, hi, near, fits, within⟩ := room
  exact ⟨lo, hi, near, fits.bound (within id hid).1 (within id hid).2 value, within⟩

theorem Holds.remove (holds : m.Holds f) (id : Nat) :
    ∃ m', m.remove id = .ok (f id, m') ∧ m'.Holds (Function.update f id none) ∧
      m.SameRow m' := by
  by_cases covers : m.Covers id
  · have hslot := slot?_of_covers covers
    have hrow : m.SameRow (m.put id none) := ⟨rfl, by simp [DenseMap.put]⟩
    cases hold : f id with
    | none =>
      refine ⟨m.put id none, ?_, holds.put covers none (by simp [hold]), hrow⟩
      rw [DenseMap.remove, hslot]
      show (m.read _ >>= _) = _
      rw [read_of_covers covers, holds.lookup, hold]
      show (m.write _ _ >>= _) = _
      rw [write_of_covers covers]
      rfl
    | some value =>
      -- an entry that is there has been counted
      have hpos : 0 < m.count := by
        rw [holds.count]
        apply List.length_pos_of_mem
        exact lookup_eq_some_iff.1 ((holds.lookup id).trans hold)
      refine ⟨{ m.put id none with count := m.count - 1 }, ?_,
        holds.put covers none (by simp [hold]; omega), hrow⟩
      rw [DenseMap.remove, hslot]
      show (m.read _ >>= _) = _
      rw [read_of_covers covers, holds.lookup, hold]
      show (m.write _ _ >>= _) = _
      rw [write_of_covers covers]
      show (require (decide (0 < m.count)) _ >>= _) = _
      rw [require, if_pos (decide_eq_true hpos)]
      rfl
  · have hnone : f id = none := by rw [← holds.lookup, lookup_of_not_covers covers]
    refine ⟨m, ?_, ?_, rfl, rfl⟩
    · rw [DenseMap.remove, slot?_of_not_covers covers, hnone]
      rfl
    · rw [← hnone, Function.update_eq_self]
      exact holds

theorem Holds.modify (holds : m.Holds f) (id : Nat) (change : β → β) :
    ∃ m', m.modify id change = .ok ((f id).isSome, m') ∧
      m'.Holds (Function.update f id ((f id).map change)) ∧ m.SameRow m' := by
  have hself (hnone : f id = none) : m.Holds (Function.update f id ((f id).map change)) := by
    rw [hnone, Option.map_none, ← hnone, Function.update_eq_self]
    exact holds
  by_cases covers : m.Covers id
  · have hslot := slot?_of_covers covers
    cases hold : f id with
    | none =>
      refine ⟨m, ?_, hold ▸ hself hold, rfl, rfl⟩
      rw [DenseMap.modify, hslot]
      show (m.read _ >>= _) = _
      rw [read_of_covers covers, holds.lookup, hold]
      rfl
    | some value =>
      refine ⟨m.put id (some (change value)), ?_,
        holds.put covers (some (change value)) (by simp [hold]), rfl, by simp [DenseMap.put]⟩
      rw [DenseMap.modify, hslot]
      show (m.read _ >>= _) = _
      rw [read_of_covers covers, holds.lookup, hold]
      show (m.write _ _ >>= _) = _
      rw [write_of_covers covers]
      rfl
  · have hnone : f id = none := by rw [← holds.lookup, lookup_of_not_covers covers]
    refine ⟨m, ?_, hself hnone, rfl, rfl⟩
    rw [DenseMap.modify, slot?_of_not_covers covers, hnone]
    rfl

/-! ### What can be seen of a row -/

theorem mem_keys (m : DenseMap β) (id : Nat) : id ∈ m.keys ↔ (m.lookup id).isSome = true := by
  rw [keys, List.mem_map, Option.isSome_iff_exists]
  constructor
  · rintro ⟨⟨_, value⟩, hmem, rfl⟩
    exact ⟨value, lookup_eq_some_iff.2 hmem⟩
  · rintro ⟨value, hvalue⟩
    exact ⟨(id, value), lookup_eq_some_iff.1 hvalue, rfl⟩

theorem keys_ascending (m : DenseMap β) : m.keys.Pairwise (· < ·) := m.toIdMap.keys_ascending

variable {members : Finset Nat}

theorem Holds.toFinset_keys (holds : m.Holds f) (same : ∀ id, id ∈ members ↔ (f id).isSome = true) :
    m.keys.toFinset = members := by
  ext id
  rw [List.mem_toFinset, mem_keys, holds.lookup, same]

theorem Holds.keys_eq_sort (holds : m.Holds f)
    (same : ∀ id, id ∈ members ↔ (f id).isSome = true) : m.keys = members.sort := by
  have nodup : m.keys.Nodup := m.keys_ascending.imp Nat.ne_of_lt
  rw [← holds.toFinset_keys same]
  exact ((List.toFinset_sort (· ≤ ·) nodup).2 (m.keys_ascending.imp Nat.le_of_lt)).symm

theorem Holds.count_eq_card (holds : m.Holds f)
    (same : ∀ id, id ∈ members ↔ (f id).isSome = true) : m.count = members.card := by
  rw [holds.count, ← Finset.length_sort (· ≤ ·), ← holds.keys_eq_sort same, keys, List.length_map]

/-- What can be seen of the map is what the finite map has, also in the answers to the next
operation. -/
structure Shows (m : DenseMap β) (table : Finmap fun _ : Nat => β) : Prop where
  get? : ∀ id, m.get? id = .ok (table.lookup id)
  count : m.count = table.keys.card
  isEmpty : m.isEmpty = true ↔ table = ∅
  keys : m.keys = table.keys.sort
  ascending : m.keys.Pairwise (· < ·)
  entries : ∀ id value, (id, value) ∈ m.entries ↔ table.lookup id = some value
  insert : ∀ id value, (∃ m', m.insert id value = .ok (table.lookup id, m')) ∨
    m.insert id value = .error .rowTooLong
  remove : ∀ id, ∃ m', m.remove id = .ok (table.lookup id, m')
  modify : ∀ id change, ∃ m', m.modify id change = .ok ((table.lookup id).isSome, m')

theorem Holds.shows {table : Finmap fun _ : Nat => β}
    (holds : m.Holds fun id => table.lookup id) : m.Shows table := by
  have same (id : Nat) : id ∈ table.keys ↔ (table.lookup id).isSome = true := by
    rw [Finmap.mem_keys, Finmap.lookup_isSome]
  have hcount := holds.count_eq_card same
  refine ⟨holds.get?, hcount, ?_, holds.keys_eq_sort same, m.keys_ascending, ?_, ?_, ?_, ?_⟩
  · rw [DenseMap.isEmpty, beq_iff_eq, hcount, Finset.card_eq_zero]
    constructor
    · intro hkeys
      refine Finmap.ext_lookup fun id => ?_
      have hid : id ∉ table.keys := by simp [hkeys]
      rw [Finmap.lookup_eq_none.2 (fun h => hid (Finmap.mem_keys.2 h)), Finmap.lookup_empty]
    · rintro rfl
      exact Finmap.keys_empty
  · intro id value
    rw [← lookup_eq_some_iff, holds.lookup]
  · intro id value
    rcases Nat.lt_or_ge limit (m.sizeFor id) with long | fits
    · exact .inr (insert_of_lt long value)
    · exact .inl ⟨_, holds.lookup id ▸ insert_of_le fits value⟩
  · intro id
    obtain ⟨m', hrun, -⟩ := holds.remove id
    exact ⟨m', hrun⟩
  · intro id change
    obtain ⟨m', hrun, -⟩ := holds.modify id change
    exact ⟨m', hrun⟩

/-! ### Histories of maps -/

/-- The operations by which a map was made. -/
inductive History (β : Type) where
  | empty
  | insert (before : History β) (id : Nat) (value : β)
  | remove (before : History β) (id : Nat)
  | modify (before : History β) (id : Nat) (change : β → β)
  | clear (before : History β)

namespace History

/-- The operations on a dense map. -/
def run : History β → Checked (DenseMap β)
  | empty => .ok .empty
  | insert h id value => do pure (← (← h.run).insert id value).2
  | remove h id => do pure (← (← h.run).remove id).2
  | modify h id change => do pure (← (← h.run).modify id change).2
  | clear h => do pure (← h.run).clear

/-- The same operations on a finite map. -/
def finmap : History β → Finmap fun _ : Nat => β
  | empty => ∅
  | insert h id value => h.finmap.insert id value
  | remove h id => h.finmap.erase id
  | modify h id change => (h.finmap.lookup id).elim h.finmap fun v => h.finmap.insert id (change v)
  | clear _ => ∅

/-- The same operations on a map that is listed in ascending order. -/
def idMap : History β → IdMap β
  | empty => .empty
  | insert h id value => h.idMap.insert id value
  | remove h id => h.idMap.erase id
  | modify h id change => h.idMap.modify id change
  | clear _ => .empty

/-- The ids that were bound since the row was given up last. -/
def ids : History β → List Nat
  | empty | clear _ => []
  | insert h id _ => id :: h.ids
  | remove h _ | modify h _ _ => h.ids

/-- At no time are ids bound that are too far apart. -/
def IsNarrow : History β → Prop
  | empty => True
  | insert h id _ => h.IsNarrow ∧ DenseMap.IsNarrow (id :: h.ids)
  | remove h _ | modify h _ _ | clear h => h.IsNarrow

theorem lookup_finmap_insert (h : History β) (id : Nat) (value : β) :
    (fun i => (h.finmap.insert id value).lookup i) =
      Function.update (fun i => h.finmap.lookup i) id (some value) := by
  funext i
  by_cases hi : i = id
  · subst hi
    rw [Finmap.lookup_insert, Function.update_self]
  · rw [Finmap.lookup_insert_of_ne _ hi, Function.update_of_ne hi]

theorem lookup_finmap_remove (h : History β) (id : Nat) :
    (fun i => (h.remove id).finmap.lookup i) =
      Function.update (fun i => h.finmap.lookup i) id none := by
  funext i
  show (h.finmap.erase id).lookup i = _
  by_cases hi : i = id
  · subst hi
    rw [Finmap.lookup_erase, Function.update_self]
  · rw [Finmap.lookup_erase_ne hi, Function.update_of_ne hi]

theorem lookup_finmap_modify (h : History β) (id : Nat) (change : β → β) :
    (fun i => (h.modify id change).finmap.lookup i) =
      Function.update (fun i => h.finmap.lookup i) id ((h.finmap.lookup id).map change) := by
  cases hid : h.finmap.lookup id with
  | none =>
    rw [Option.map_none, ← hid, Function.update_eq_self, finmap, hid]
    rfl
  | some value =>
    rw [finmap, hid]
    exact h.lookup_finmap_insert id (change value)

/-- What is known of a row with a history. -/
structure Reaches (h : History β) (m : DenseMap β) : Prop where
  holds : m.Holds fun id => h.finmap.lookup id
  reach : ∀ bound, (∀ id ∈ h.ids, id < bound) → m.reach ≤ 2 * bound
  fits : ∀ lo hi, (∀ id ∈ h.ids, lo ≤ id ∧ id < hi) → m.FitsIn lo hi

theorem Reaches.insert {h : History β} (reaches : h.Reaches m) (id : Nat) (value : β) :
    (h.insert id value).Reaches (m.bound id value) where
  holds := (h.lookup_finmap_insert id value).symm ▸ reaches.holds.bound id value
  reach bound hbound := by
    obtain ⟨hid, hids⟩ := List.forall_mem_cons.1 hbound
    have hreach := reaches.reach bound hids
    have hstep := m.reach_bound_le id value
    omega
  fits lo hi hbounds := by
    obtain ⟨hid, hids⟩ := List.forall_mem_cons.1 hbounds
    exact (reaches.fits lo hi hids).bound hid.1 hid.2 value

theorem Reaches.sizeFor_le {h : History β} (reaches : h.Reaches m) {id : Nat}
    (narrow : DenseMap.IsNarrow (id :: h.ids)) : m.sizeFor id ≤ limit := by
  obtain ⟨lo, hi, hlimit, hbounds⟩ := narrow.exists_bounds
  obtain ⟨hid, hids⟩ := List.forall_mem_cons.1 hbounds
  exact ((reaches.fits lo hi hids).sizeFor_le hid.1 hid.2).trans hlimit

/-- **A history can be run**, and the row holds the finite map with that history, unless ids that
are too far apart make the row too long. -/
theorem run_cases (h : History β) :
    (h.run = .error .rowTooLong ∧ ¬h.IsNarrow) ∨ ∃ m, h.run = .ok m ∧ h.Reaches m := by
  induction h with
  | empty =>
    exact .inr ⟨_, rfl, holds_empty, fun _ _ => Nat.zero_le _, fun lo hi _ => fitsIn_empty lo hi⟩
  | insert h id value ih =>
    rcases ih with ⟨hrun, wide⟩ | ⟨m, hrun, reaches⟩
    · refine .inl ⟨?_, fun narrow => wide narrow.1⟩
      rw [run, hrun]
      rfl
    · rcases Nat.lt_or_ge limit (m.sizeFor id) with long | fits
      · refine .inl ⟨?_, fun narrow => Nat.not_le.2 long (reaches.sizeFor_le narrow.2)⟩
        rw [run, hrun]
        show (m.insert id value >>= _) = _
        rw [insert_of_lt long]
        rfl
      · refine .inr ⟨_, ?_, reaches.insert id value⟩
        rw [run, hrun]
        show (m.insert id value >>= _) = _
        rw [insert_of_le fits]
        rfl
  | remove h id ih =>
    rcases ih with ⟨hrun, wide⟩ | ⟨m, hrun, reaches⟩
    · refine .inl ⟨?_, wide⟩
      rw [run, hrun]
      rfl
    · obtain ⟨m', hrun', holds', hrow⟩ := reaches.holds.remove id
      refine .inr ⟨m', ?_, (h.lookup_finmap_remove id).symm ▸ holds', ?_, ?_⟩
      · rw [run, hrun]
        show (m.remove id >>= _) = _
        rw [hrun']
        rfl
      · exact fun bound hbound => hrow.reach_eq ▸ reaches.reach bound hbound
      · exact fun lo hi hbounds => hrow.fitsIn (reaches.fits lo hi hbounds)
  | modify h id change ih =>
    rcases ih with ⟨hrun, wide⟩ | ⟨m, hrun, reaches⟩
    · refine .inl ⟨?_, wide⟩
      rw [run, hrun]
      rfl
    · obtain ⟨m', hrun', holds', hrow⟩ := reaches.holds.modify id change
      refine .inr ⟨m', ?_, (h.lookup_finmap_modify id change).symm ▸ holds', ?_, ?_⟩
      · rw [run, hrun]
        show (m.modify id change >>= _) = _
        rw [hrun']
        rfl
      · exact fun bound hbound => hrow.reach_eq ▸ reaches.reach bound hbound
      · exact fun lo hi hbounds => hrow.fitsIn (reaches.fits lo hi hbounds)
  | clear h ih =>
    rcases ih with ⟨hrun, wide⟩ | ⟨m, hrun, -⟩
    · refine .inl ⟨?_, wide⟩
      rw [run, hrun]
      rfl
    · refine .inr ⟨.empty, ?_, holds_empty, fun _ _ => Nat.zero_le _,
        fun lo hi _ => fitsIn_empty lo hi⟩
      rw [run, hrun]
      rfl

theorem get?_idMap (h : History β) (id : Nat) : h.idMap.get? id = h.finmap.lookup id := by
  induction h generalizing id with
  | empty => rfl
  | insert h i value ih =>
    rw [idMap, IdMap.get?_insert, ih, ← Function.update_apply (fun i => h.finmap.lookup i)]
    exact (congrFun (h.lookup_finmap_insert i value) id).symm
  | remove h i ih =>
    rw [idMap, IdMap.get?_erase, ih, ← Function.update_apply (fun i => h.finmap.lookup i)]
    exact (congrFun (h.lookup_finmap_remove i) id).symm
  | modify h i change ih =>
    rw [idMap, IdMap.get?_modify, ih, ih, ← Function.update_apply (fun i => h.finmap.lookup i)]
    exact (congrFun (h.lookup_finmap_modify i change) id).symm
  | clear h ih => rfl

end History

end DenseMap

end Equational
