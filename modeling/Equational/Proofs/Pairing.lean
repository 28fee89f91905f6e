import Equational.Heuristic.Pairing
import Mathlib

/-!
# Branch and bound finds the cheapest pairing

Costs are exact here: they are added and compared without rounding, and none is below zero. A
partial pairing is given up only if it costs as much as a complete one that is known, and a pairing
never becomes cheaper, so nothing better is lost (`Pairing.isBest_search`).

In the middle of a search some rows are in use already, which is kept track of by marks. What the
search goes through from there are the one-to-one maps from the columns that are left to the rows
without a mark (`Pairing.completes_freeRows_iff`). From the start, where no row has a mark, it gives
the least cost of all one-to-one maps from columns to rows (`Pairing.isLeast_leastCost`).
-/

namespace Equational

/-- Costs without rounding: they are added and compared as numbers. -/
class Cost.IsExact (α : Type) [Cost α] [AddCommMonoid α] [LinearOrder α] : Prop where
  zero_eq : (Cost.zero : α) = 0
  add_eq : ∀ a b : α, Cost.add a b = a + b
  reaches_iff : ∀ a b : α, Cost.reaches a b = true ↔ b ≤ a
  least_eq : ∀ a b : α, Cost.least a b = min a b

instance : Cost ℚ≥0 where
  zero := 0
  one := 1
  add a b := a + b
  reaches a b := decide (b ≤ a)
  least a b := min a b

instance : Cost.IsExact ℚ≥0 where
  zero_eq := rfl
  add_eq _ _ := rfl
  reaches_iff _ _ := decide_eq_true_iff
  least_eq _ _ := rfl

namespace Pairing

variable {α : Type}

/-! ### The search -/

section Search

variable [AddCommMonoid α]

/-- The search can give each of the columns a row of its own at this cost. -/
inductive Completes : (columns : Nat) → List (List α) → α → Prop
  | done (rows : List (List α)) : Completes 0 rows 0
  | column {columns : Nat} {rows others : List (List α)} {entry cost : α}
      (choice : (entry, others) ∈ firstChoices rows) (rest : Completes columns others cost) :
      Completes (columns + 1) rows (entry + cost)

/-- What can be reached from a partial pairing. -/
def reached (columns : Nat) (rows : List (List α)) (cost : α) : Set α :=
  {total | ∃ more, Completes columns rows more ∧ cost + more = total}

theorem reached_zero (rows : List (List α)) (cost : α) : reached 0 rows cost = {cost} := by
  ext total
  constructor
  · rintro ⟨more, completes, rfl⟩
    cases completes
    exact add_zero cost
  · rintro rfl
    exact ⟨0, .done rows, add_zero total⟩

/-- What can be reached with one of the ways to give the first column a row. -/
theorem mem_reached_succ {columns : Nat} {rows : List (List α)} {cost total : α} :
    total ∈ reached (columns + 1) rows cost ↔
      ∃ choice ∈ firstChoices rows, total ∈ reached columns choice.2 (cost + choice.1) := by
  constructor
  · rintro ⟨_, completes, rfl⟩
    cases completes with
    | @column _ _ others entry more choice rest =>
      exact ⟨(entry, others), choice, more, rest, add_assoc cost entry more⟩
  · rintro ⟨⟨entry, others⟩, choice, more, rest, rfl⟩
    exact ⟨entry + more, .column choice rest, (add_assoc cost entry more).symm⟩

end Search

section Best

variable [LinearOrder α]

/-- The least of a set of costs, or nothing if there are none. -/
def IsBest (costs : Set α) : Option α → Prop
  | none => costs = ∅
  | some best => IsLeast costs best

variable {costs : Set α} {best : Option α}

theorem isBest_known (best : Option α) : IsBest {known | best = some known} best := by
  cases best with
  | none => exact Set.eq_empty_of_forall_notMem (by simp)
  | some b =>
    refine ⟨rfl, ?_⟩
    rintro known ⟨rfl⟩
    exact le_refl b

theorem IsBest.union_of_le {b : α} (h : IsBest costs (some b)) {more : Set α}
    (le : ∀ c ∈ more, b ≤ c) : IsBest (costs ∪ more) (some b) := by
  refine ⟨.inl h.1, ?_⟩
  rintro c (hc | hc)
  · exact h.2 hc
  · exact le c hc

variable [Cost α] [AddCommMonoid α] [Cost.IsExact α]

theorem IsBest.improve (h : IsBest costs best) (cost : α) :
    IsBest (costs ∪ {cost}) (some (improve cost best)) := by
  cases best with
  | none =>
    have hempty : costs = ∅ := h
    rw [hempty, Set.empty_union]
    exact isLeast_singleton
  | some best =>
    rw [Pairing.improve, Cost.IsExact.least_eq]
    exact IsLeast.union h isLeast_singleton

/-- The costs seen so far grow by those of one choice after another. -/
theorem isBest_foldl {columns : Nat} {cost : α}
    (searches : ∀ (rows : List (List α)) (cost : α) (costs : Set α) (best : Option α),
      IsBest costs best →
        IsBest (costs ∪ reached columns rows cost) (search columns rows cost best))
    (choices : List (α × List (List α))) (h : IsBest costs best) :
    IsBest (costs ∪ {c | ∃ choice ∈ choices, c ∈ reached columns choice.2 (cost + choice.1)})
      (choices.foldl
        (fun best choice => search columns choice.2 (Cost.add cost choice.1) best) best) := by
  induction choices generalizing costs best with
  | nil => simpa using h
  | cons choice choices ih =>
    have hrest := ih (searches choice.2 (cost + choice.1) costs best h)
    have hunion : reached columns choice.2 (cost + choice.1) ∪
        {c | ∃ other ∈ choices, c ∈ reached columns other.2 (cost + other.1)} =
        {c | ∃ other ∈ choice :: choices, c ∈ reached columns other.2 (cost + other.1)} := by
      ext c
      simp
    rw [Set.union_assoc, hunion] at hrest
    rw [List.foldl_cons, Cost.IsExact.add_eq]
    exact hrest

/-- **Nothing better is lost**, whatever was found before. -/
theorem isBest_search [CanonicallyOrderedAdd α] (columns : Nat) (rows : List (List α)) (cost : α)
    (h : IsBest costs best) :
    IsBest (costs ∪ reached columns rows cost) (search columns rows cost best) := by
  induction columns generalizing rows cost costs best with
  | zero =>
    rw [search, reached_zero]
    exact h.improve cost
  | succ columns ih =>
    rw [search]
    split
    next pruned =>
      cases best with
      | none => cases pruned
      | some b =>
        have hle : b ≤ cost := (Cost.IsExact.reaches_iff cost b).1 pruned
        refine h.union_of_le ?_
        rintro _ ⟨more, -, rfl⟩
        exact hle.trans le_self_add
    next =>
      have hsucc : reached (columns + 1) rows cost =
          {c | ∃ choice ∈ firstChoices rows, c ∈ reached columns choice.2 (cost + choice.1)} := by
        ext c
        exact mem_reached_succ
      rw [hsucc]
      exact isBest_foldl (fun rows cost costs best h => ih rows cost h) (firstChoices rows) h

end Best

/-! ### The rows that are left -/

section FreeRows

/-- What is left of the rows without a mark, from number `column` of their entries on. -/
def freeRows (column : Nat) : List (List α) → List Bool → List (List α)
  | row :: rows, used :: marks =>
    if used then freeRows column rows marks else row.drop column :: freeRows column rows marks
  | _, _ => []

theorem freeRows_unmarked (rows : List (List α)) :
    freeRows 0 rows (List.replicate rows.length false) = rows := by
  induction rows with
  | nil => rfl
  | cons row rows ih =>
    rw [List.length_cons, List.replicate_succ, freeRows, ih, List.drop_zero]
    rfl

theorem map_tail_freeRows (column : Nat) (rows : List (List α)) (marks : List Bool) :
    (freeRows column rows marks).map List.tail = freeRows (column + 1) rows marks := by
  induction rows generalizing marks with
  | nil => cases marks <;> rfl
  | cons row rows ih =>
    cases marks with
    | nil => rfl
    | cons used marks =>
      cases used with
      | true => exact ih marks
      | false =>
        show (row.drop column).tail :: (freeRows column rows marks).map List.tail = _
        rw [ih, List.tail_drop]
        rfl

theorem firstChoices_cons (entry : α) (row : List α) (rows : List (List α)) :
    firstChoices ((entry :: row) :: rows) = (entry, rows.map List.tail) ::
      (firstChoices rows).map fun choice => (choice.1, row :: choice.2) := by
  simp only [firstChoices, List.length_cons, List.range_succ_eq_map, List.filterMap_cons,
    List.filterMap_map, List.map_filterMap]
  refine congrArg₂ List.cons rfl (congrArg₂ List.filterMap (funext fun i => ?_) rfl)
  simp only [Function.comp_apply, List.getElem?_cons_succ]
  rcases rows[i]? with _ | _ | ⟨_, _⟩
  · rfl
  · rfl
  · rfl

/-- The choice of a row, which has to be without a mark. The row is in use afterwards. -/
def choiceAt (rows : List (List α)) (marks : List Bool) (column row : Nat) :
    Option (α × List (List α)) :=
  if marks[row]? = some false then
    (rows[row]?.bind fun entries => entries[column]?).map fun entry =>
      (entry, freeRows (column + 1) rows (marks.set row true))
  else none

/-- **The choices among the rows that are left**, by the numbers of all rows. -/
theorem firstChoices_freeRows {rows : List (List α)} {marks : List Bool} {column : Nat}
    (wide : ∀ row ∈ rows, column < row.length) (marked : marks.length = rows.length) :
    firstChoices (freeRows column rows marks) =
      (List.range rows.length).filterMap (choiceAt rows marks column) := by
  induction rows generalizing marks with
  | nil => rfl
  | cons row rows ih =>
    obtain ⟨used, marks, rfl⟩ : ∃ used rest, marks = used :: rest :=
      List.exists_cons_of_length_eq_add_one marked
    have hmarked : marks.length = rows.length := Nat.succ_injective marked
    have hrest := ih (fun row' h => wide row' (List.mem_cons_of_mem row h)) hmarked
    rw [List.length_cons, List.range_succ_eq_map, List.filterMap_cons, List.filterMap_map]
    cases used with
    | true =>
      have hshift : choiceAt (row :: rows) (true :: marks) column ∘ Nat.succ =
          choiceAt rows marks column := rfl
      rw [hshift, ← hrest]
      rfl
    | false =>
      have hlt : column < row.length := wide row List.mem_cons_self
      have hshift : choiceAt (row :: rows) (false :: marks) column ∘ Nat.succ = fun i =>
          (choiceAt rows marks column i).map fun choice =>
            (choice.1, row.drop (column + 1) :: choice.2) := by
        funext i
        simp only [Function.comp_apply, choiceAt, Nat.succ_eq_add_one, List.getElem?_cons_succ,
          List.set_cons_succ]
        split
        next => simp [freeRows, Function.comp_def]
        next => rfl
      have hfirst : choiceAt (row :: rows) (false :: marks) column 0 =
          some (row[column], freeRows (column + 1) rows marks) := by
        simp [choiceAt, freeRows, hlt]
      have hfree : freeRows column (row :: rows) (false :: marks) =
          (row[column] :: row.drop (column + 1)) :: freeRows column rows marks := by
        rw [List.getElem_cons_drop]
        rfl
      rw [hfree, firstChoices_cons, hfirst, hshift, hrest, map_tail_freeRows, List.map_filterMap]

end FreeRows

/-! ### One-to-one maps from columns to rows -/

section Maps

variable [AddCommMonoid α]

/-- The entry of a matrix, which is zero outside of it. -/
def entry (rows : List (List α)) (row column : Nat) : α := (rows.getD row []).getD column 0

theorem mem_firstChoices_freeRows {rows : List (List α)} {marks : List Bool} {column : Nat}
    (wide : ∀ row ∈ rows, column < row.length) (marked : marks.length = rows.length)
    {choice : α × List (List α)} :
    choice ∈ firstChoices (freeRows column rows marks) ↔
      ∃ row < rows.length, marks[row]? = some false ∧
        (entry rows row column, freeRows (column + 1) rows (marks.set row true)) = choice := by
  have hread (row : Nat) (h : row < rows.length) :
      (rows[row]?.bind fun entries => entries[column]?) = some (entry rows row column) := by
    have hlt : column < rows[row].length := wide _ (List.getElem_mem h)
    simp [entry, h, hlt]
  rw [firstChoices_freeRows wide marked, List.mem_filterMap]
  constructor
  · rintro ⟨row, hrow, hchoice⟩
    have hrow : row < rows.length := List.mem_range.1 hrow
    rw [choiceAt, hread row hrow] at hchoice
    split at hchoice
    next free => exact ⟨row, hrow, free, Option.some_inj.1 hchoice⟩
    next => cases hchoice
  · rintro ⟨row, hrow, free, rfl⟩
    refine ⟨row, List.mem_range.2 hrow, ?_⟩
    rw [choiceAt, if_pos free, hread row hrow]
    rfl

/-- A row has no mark after another one has been marked, if it had none before and is not that
one. -/
theorem getElem?_set_true_eq_false_iff {marks : List Bool} {i row : Nat} :
    (marks.set i true)[row]? = some false ↔ row ≠ i ∧ marks[row]? = some false := by
  rw [List.getElem?_set]
  grind

/-- **What the search goes through** when some rows have marks: the one-to-one maps from the columns
that are left to the rows without a mark. -/
theorem completes_freeRows_iff {rows : List (List α)} {marks : List Bool} {n columns column : Nat}
    (size : rows.length = n) (marked : marks.length = n)
    (wide : ∀ row ∈ rows, column + columns ≤ row.length) {total : α} :
    Completes columns (freeRows column rows marks) total ↔
      ∃ f : Fin columns ↪ Fin n, (∀ j, marks[(f j).1]? = some false) ∧
        ∑ j, entry rows (f j) (column + j) = total := by
  induction columns generalizing column marks total with
  | zero =>
    constructor
    · intro completes
      cases completes
      exact ⟨Function.Embedding.ofIsEmpty, fun j => j.elim0, rfl⟩
    · rintro ⟨f, -, rfl⟩
      exact .done _
  | succ columns ih =>
    have hwide : ∀ row ∈ rows, column < row.length := fun row h => by
      have := wide row h
      omega
    have hrest (i : Nat) (total : α) :
        Completes columns (freeRows (column + 1) rows (marks.set i true)) total ↔
          ∃ f : Fin columns ↪ Fin n, (∀ j, (marks.set i true)[(f j).1]? = some false) ∧
            ∑ j, entry rows (f j) (column + 1 + j) = total := by
      apply ih
      · rw [List.length_set, marked]
      · intro row h
        have := wide row h
        omega
    have hsum (f : Fin (columns + 1) ↪ Fin n) :
        ∑ j, entry rows (f j) (column + j) = entry rows (f 0) column +
          ∑ j : Fin columns, entry rows (f j.succ) (column + 1 + j) := by
      rw [Fin.sum_univ_succ]
      simp [Nat.add_assoc, Nat.add_comm 1]
    constructor
    · intro completes
      cases completes with
      | column choice rest =>
        obtain ⟨i, hi, free, hchoice⟩ :=
          (mem_firstChoices_freeRows hwide (marked.trans size.symm)).1 choice
        cases hchoice
        obtain ⟨f, hfree, rfl⟩ := (hrest i _).1 rest
        have hnew : (⟨i, size ▸ hi⟩ : Fin n) ∉ Set.range f := by
          rintro ⟨j, hj⟩
          exact (getElem?_set_true_eq_false_iff.1 (hfree j)).1 (congrArg Fin.val hj)
        refine ⟨Fin.Embedding.cons f hnew, ?_, hsum _⟩
        intro j
        cases j using Fin.cases with
        | zero => exact free
        | succ j => exact (getElem?_set_true_eq_false_iff.1 (hfree j)).2
    · rintro ⟨f, hfree, rfl⟩
      rw [hsum]
      refine .column ((mem_firstChoices_freeRows hwide (marked.trans size.symm)).2
        ⟨f 0, size ▸ (f 0).2, hfree 0, rfl⟩) ((hrest (f 0) _).2 ⟨Fin.Embedding.tail f, ?_, rfl⟩)
      intro j
      refine getElem?_set_true_eq_false_iff.2 ⟨fun h => ?_, hfree j.succ⟩
      exact Fin.succ_ne_zero j (f.injective (Fin.ext h))

/-- What can be reached from a partial pairing, by the maps that complete it. -/
theorem reached_freeRows {rows : List (List α)} {marks : List Bool} {n columns column : Nat}
    (size : rows.length = n) (marked : marks.length = n)
    (wide : ∀ row ∈ rows, column + columns ≤ row.length) (cost : α) :
    reached columns (freeRows column rows marks) cost =
      {total | ∃ f : Fin columns ↪ Fin n, (∀ j, marks[(f j).1]? = some false) ∧
        cost + ∑ j, entry rows (f j) (column + j) = total} := by
  ext total
  simp only [reached, completes_freeRows_iff size marked wide, Set.mem_ofPred_eq]
  constructor
  · rintro ⟨_, ⟨f, free, rfl⟩, htotal⟩
    exact ⟨f, free, htotal⟩
  · rintro ⟨f, free, htotal⟩
    exact ⟨_, ⟨f, free, rfl⟩, htotal⟩

/-- What can be reached from the start. -/
theorem reached_start {rows : List (List α)} {n columns : Nat} (size : rows.length = n)
    (wide : ∀ row ∈ rows, columns ≤ row.length) :
    reached columns rows 0 =
      Set.range fun f : Fin columns ↪ Fin n => ∑ j, entry rows (f j) j := by
  have hmarked : (List.replicate rows.length false).length = n := by
    rw [List.length_replicate, size]
  have hfree (i : Fin n) : (List.replicate rows.length false)[i.1]? = some false := by
    rw [List.getElem?_replicate, if_pos (size ▸ i.2)]
  have hwide : ∀ row ∈ rows, 0 + columns ≤ row.length := by
    rwa [Nat.zero_add]
  have hreached := reached_freeRows size hmarked hwide 0
  rw [freeRows_unmarked] at hreached
  rw [hreached]
  ext total
  simp [hfree]

variable [LinearOrder α] [Cost α] [Cost.IsExact α] [CanonicallyOrderedAdd α]

/-- **Branch and bound is exact**: what is found from the start is the least cost of all one-to-one
maps from columns to rows. -/
theorem isBest_search_start {rows : List (List α)} {n columns : Nat} (size : rows.length = n)
    (wide : ∀ row ∈ rows, columns ≤ row.length) :
    IsBest (Set.range fun f : Fin columns ↪ Fin n => ∑ j, entry rows (f j) j)
      (search columns rows Cost.zero none) := by
  have hbest : IsBest (∅ ∪ reached columns rows 0) (search columns rows 0 none) :=
    isBest_search columns rows 0 rfl
  rwa [Set.empty_union, reached_start size wide, ← Cost.IsExact.zero_eq] at hbest

theorem exists_search_start {rows : List (List α)} {n columns : Nat} (size : rows.length = n)
    (wide : ∀ row ∈ rows, columns ≤ row.length) (enough : columns ≤ n) :
    ∃ cost, search columns rows Cost.zero none = some cost ∧
      IsLeast (Set.range fun f : Fin columns ↪ Fin n => ∑ j, entry rows (f j) j) cost := by
  have hbest := isBest_search_start size wide
  generalize search columns rows Cost.zero none = found at hbest
  cases found with
  | none =>
    have hmem : (∑ j : Fin columns, entry rows (Fin.castLEEmb enough j) j) ∈
        Set.range fun f : Fin columns ↪ Fin n => ∑ j, entry rows (f j) j :=
      ⟨Fin.castLEEmb enough, rfl⟩
    have hempty : (Set.range fun f : Fin columns ↪ Fin n => ∑ j, entry rows (f j) j) = ∅ := hbest
    rw [hempty] at hmem
    exact absurd hmem (Set.notMem_empty _)
  | some best => exact ⟨best, rfl, hbest⟩

theorem isLeast_leastCost {rows : List (List α)} {n columns : Nat} (size : rows.length = n)
    (wide : ∀ row ∈ rows, columns ≤ row.length) (enough : columns ≤ n) :
    IsLeast (Set.range fun f : Fin columns ↪ Fin n => ∑ j, entry rows (f j) j)
      (leastCost rows columns) := by
  obtain ⟨cost, hsearch, isLeast⟩ := exists_search_start size wide enough
  rwa [leastCost, hsearch]

end Maps

end Pairing

end Equational
