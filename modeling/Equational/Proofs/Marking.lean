import Equational.Heuristic.Marking
import Equational.Proofs.Pairing

/-!
# Marks are taken back

A call of the search in place leaves the marks on the rows as it has found them, and the best cost
becomes what the search on copies finds among the rows without a mark (`Pairing.assign_eq`). This
holds for costs of any kind. For exact costs, every call finds the least of what was known before
and of all ways to complete the pairing that it was given (`Pairing.leastAssignment_is_exact`).
-/

namespace Equational

namespace Pairing

variable {α : Type} {rows : List (List α)} {row column columns : Nat}

/-! ### One row -/

namespace Progress

variable {p : Progress α}

theorem isInUse_eq {used : Bool} (h : p.inUse[row]? = some used) : p.isInUse row = .ok used := by
  rw [isInUse, h]
  rfl

theorem mark_eq (h : row < p.inUse.size) (used : Bool) :
    p.mark row used = .ok { p with inUse := p.inUse.setIfInBounds row used } := by
  rw [mark, require, if_pos (decide_eq_true h)]
  rfl

end Progress

theorem entryAt_eq {value : α}
    (h : (rows[row]?.bind fun entries => entries[column]?) = some value) :
    entryAt rows row column = .ok value := by
  obtain ⟨entries, hentries, hvalue⟩ := Option.bind_eq_some_iff.1 h
  rw [entryAt, hentries]
  show (Violation.indexOutOfRange column).unless entries[column]? = .ok value
  rw [hvalue]
  rfl

/-- A mark that is set and taken away was not there. -/
theorem unmark_mark {marks : Array Bool} (free : marks[row]? = some false) :
    (marks.setIfInBounds row true).setIfInBounds row false = marks := by
  apply Array.ext_getElem?
  intro i
  grind

variable [Cost α] {cost : α} {goOn : α → Progress α → Checked (Progress α)} {p : Progress α}

theorem tryRow_of_used (used : p.inUse[row]? = some true) :
    tryRow rows column cost goOn p row = .ok p := by
  rw [tryRow, Progress.isInUse_eq used]
  rfl

/-- A row that is free is free again afterwards, if the rest of the search changes no marks. -/
theorem tryRow_of_free (free : p.inUse[row]? = some false) {value : α}
    (read : (rows[row]?.bind fun entries => entries[column]?) = some value) {best : Option α}
    (goes : goOn (Cost.add cost value) { p with inUse := p.inUse.setIfInBounds row true } =
      .ok { inUse := p.inUse.setIfInBounds row true, best }) :
    tryRow rows column cost goOn p row = .ok { p with best } := by
  have hrow : row < p.inUse.size := (Array.getElem?_eq_some_iff.1 free).1
  have hrow' : row < (p.inUse.setIfInBounds row true).size := by
    rwa [Array.size_setIfInBounds]
  rw [tryRow, Progress.isInUse_eq free]
  show (p.mark row true >>= fun p => entryAt rows row column >>= fun value =>
    goOn (Cost.add cost value) p >>= fun p => p.mark row false) = _
  rw [Progress.mark_eq hrow]
  show (entryAt rows row column >>= fun value => _) = _
  rw [entryAt_eq read]
  show (goOn (Cost.add cost value) _ >>= fun p => p.mark row false) = _
  rw [goes]
  show Progress.mark _ row false = _
  rw [Progress.mark_eq hrow', unmark_mark free]

/-! ### The search -/

/-- What the search on copies makes of the best cost, one choice after another. -/
def afterChoices (columns : Nat) (cost : α) (best : Option α)
    (choices : List (α × List (List α))) : Option α :=
  choices.foldl (fun best choice => search columns choice.2 (Cost.add cost choice.1) best) best

/-- The rest of the search, from the column after this one, changes no marks. -/
def Restores (rows : List (List α)) (column columns : Nat)
    (goOn : α → Progress α → Checked (Progress α)) : Prop :=
  ∀ (cost : α) (p : Progress α), p.inUse.size = rows.length → goOn cost p =
    .ok ⟨p.inUse, search columns (freeRows (column + 1) rows p.inUse.toList) cost p.best⟩

/-- **One row**: the marks stay, and the best cost is compared with what the choice of this row
leads to. -/
theorem tryRow_eq (cost : α) (goes : Restores rows column columns goOn)
    (wide : ∀ row ∈ rows, column < row.length) (marked : p.inUse.size = rows.length)
    (hrow : row < rows.length) :
    tryRow rows column cost goOn p row = .ok ⟨p.inUse,
      afterChoices columns cost p.best (choiceAt rows p.inUse.toList column row).toList⟩ := by
  have hlt : column < rows[row].length := wide _ (List.getElem_mem hrow)
  have read : (rows[row]?.bind fun entries => entries[column]?) = some rows[row][column] := by
    simp [hrow, hlt]
  have hmark : p.inUse[row]? = some p.inUse[row] := Array.getElem?_eq_getElem (by omega)
  rw [choiceAt, Array.getElem?_toList, read]
  cases hused : p.inUse[row] with
  | true =>
    rw [hused] at hmark
    rw [if_neg (by simp [hmark])]
    exact tryRow_of_used hmark
  | false =>
    rw [hused] at hmark
    rw [if_pos hmark]
    refine tryRow_of_free hmark read ?_
    rw [goes _ _ (by rw [Array.size_setIfInBounds, marked])]
    simp [afterChoices]

/-- **All rows in order**: each of them finds the marks as they were at first. -/
theorem foldlM_tryRow_eq (goes : Restores rows column columns goOn)
    (wide : ∀ row ∈ rows, column < row.length) (marked : p.inUse.size = rows.length)
    {numbers : List Nat} (within : ∀ row ∈ numbers, row < rows.length) :
    numbers.foldlM (tryRow rows column cost goOn) p = .ok ⟨p.inUse,
      afterChoices columns cost p.best
        (numbers.filterMap (choiceAt rows p.inUse.toList column))⟩ := by
  induction numbers generalizing p with
  | nil => rfl
  | cons row numbers ih =>
    have hstep := tryRow_eq cost goes wide marked (within row List.mem_cons_self)
    have hrest := fun best => ih (p := { p with best }) marked
      fun row h => within row (List.mem_cons_of_mem _ h)
    rw [List.foldlM_cons, hstep]
    refine (hrest _).trans ?_
    rw [List.filterMap_eq_flatMap_toList, List.filterMap_eq_flatMap_toList, List.flatMap_cons]
    simp only [afterChoices, List.foldl_append]

/-- **A call** leaves the marks as they are, and finds what the search on copies finds among the
rows without a mark. -/
theorem assign_eq (wide : ∀ row ∈ rows, column + columns ≤ row.length)
    (marked : p.inUse.size = rows.length) (cost : α) :
    assign rows columns column cost p =
      .ok ⟨p.inUse, search columns (freeRows column rows p.inUse.toList) cost p.best⟩ := by
  induction columns generalizing column cost p with
  | zero => rfl
  | succ columns ih =>
    have hwide : ∀ row ∈ rows, column < row.length := fun row h => by
      have := wide row h
      omega
    have goes : Restores rows column columns (assign rows columns (column + 1)) :=
      fun cost p marked => ih (fun row h => by have := wide row h; omega) marked cost
    rw [assign, search]
    split
    next => rfl
    next =>
      rw [foldlM_tryRow_eq goes hwide marked fun row => List.mem_range.1,
        firstChoices_freeRows hwide (by rw [Array.length_toList, marked])]
      rfl

theorem leastAssignment_eq (wide : ∀ row ∈ rows, columns ≤ row.length) :
    leastAssignment rows columns = .ok (search columns rows Cost.zero none) := by
  cases columns with
  | zero => rfl
  | succ columns =>
    have hwide : ∀ row ∈ rows, 0 + (columns + 1) ≤ row.length := by
      rwa [Nat.zero_add]
    have hassign := assign_eq (p := .start α rows.length) hwide Array.size_replicate Cost.zero
    have hfree : freeRows 0 rows (Progress.start α rows.length).inUse.toList = rows := by
      rw [Progress.start, Array.toList_replicate, freeRows_unmarked]
    rw [leastAssignment, if_neg (Nat.succ_ne_zero columns), hassign, hfree]
    rfl

/-! ### Exact costs -/

section Exact

variable [AddCommMonoid α] [LinearOrder α] [CanonicallyOrderedAdd α] [Cost.IsExact α]

/-- **Branch and bound is exact.** If there are at least as many rows as columns then the least cost
of all one-to-one maps from columns to rows is found, which is zero if there are no columns. Every
call on the way, whatever it is given, leaves the marks on the rows as they are. What it finds is
the least of the cost that was known before and of the costs of all ways to give the columns from
this one on rows without a mark, so giving up a partial pairing loses nothing better. -/
theorem leastAssignment_is_exact (rows : List (List α)) :
    leastAssignment rows 0 = .ok (some 0) ∧
    ∀ columns, (∀ row ∈ rows, columns ≤ row.length) →
      (columns ≤ rows.length → ∃ cost, leastAssignment rows columns = .ok (some cost) ∧
        IsLeast (Set.range fun f : Fin columns ↪ Fin rows.length => ∑ j, entry rows (f j) j)
          cost) ∧
      ∀ (column left : Nat) (cost : α) (p : Progress α), column + left = columns →
        p.inUse.size = rows.length →
          ∃ best, assign rows left column cost p = .ok ⟨p.inUse, best⟩ ∧
            IsBest ({known | p.best = some known} ∪
              {total | ∃ f : Fin left ↪ Fin rows.length, (∀ j, p.inUse[(f j).1]? = some false) ∧
                cost + ∑ j, entry rows (f j) (column + j) = total}) best := by
  refine ⟨?_, fun columns wide => ⟨fun enough => ?_, ?_⟩⟩
  · have hnothing : leastAssignment rows 0 = .ok (some Cost.zero) := rfl
    rw [hnothing, Cost.IsExact.zero_eq]
  · rw [leastAssignment_eq wide]
    obtain ⟨cost, hsearch, isLeast⟩ := exists_search_start rfl wide enough
    exact ⟨cost, congrArg Except.ok hsearch, isLeast⟩
  · rintro column left cost p rfl marked
    have hlength : p.inUse.toList.length = rows.length := by rw [Array.length_toList, marked]
    have hbest := isBest_search left (freeRows column rows p.inUse.toList) cost
      (isBest_known p.best)
    rw [reached_freeRows rfl hlength wide] at hbest
    simp only [Array.getElem?_toList] at hbest
    exact ⟨_, assign_eq wide marked cost, hbest⟩

/-- Three rows for two columns. -/
def threeRows : List (List ℚ≥0) := [[5, 1], [1, 5], [1 / 2, 1 / 2]]

/-- The last row is the cheapest for both columns, and it is given to the first one. A call for the
second column alone, with the last row in use and a pairing of cost two known, improves on it. -/
theorem leastAssignment_is_exact_threeRows :
    (∀ row ∈ threeRows, 2 ≤ row.length) ∧ 2 ≤ threeRows.length ∧
      leastAssignment threeRows 2 = .ok (some (3 / 2)) ∧
      IsLeast (Set.range fun f : Fin 2 ↪ Fin threeRows.length => ∑ j, entry threeRows (f j) j)
        (3 / 2) ∧
      assign threeRows 1 1 (1 / 2) ⟨#[false, false, true], some 2⟩ =
        .ok ⟨#[false, false, true], some (3 / 2)⟩ ∧
      IsLeast ({known | some 2 = some known} ∪
        {total | ∃ f : Fin 1 ↪ Fin threeRows.length,
          (∀ j, #[false, false, true][(f j).1]? = some false) ∧
            1 / 2 + ∑ j, entry threeRows (f j) (1 + j) = total}) (3 / 2) := by
  have wide : ∀ row ∈ threeRows, 2 ≤ row.length := by decide
  have enough : 2 ≤ threeRows.length := by decide
  obtain ⟨hleast, hcalls⟩ := (leastAssignment_is_exact threeRows).2 2 wide
  obtain ⟨cost, hcost, isLeast⟩ := hleast enough
  obtain ⟨best, hbest, isBest⟩ := hcalls 1 1 (1 / 2) ⟨#[false, false, true], some 2⟩ rfl rfl
  have hfound : leastAssignment threeRows 2 = .ok (some (3 / 2)) := by decide +kernel
  have hcall : assign threeRows 1 1 (1 / 2) ⟨#[false, false, true], some 2⟩ =
      .ok ⟨#[false, false, true], some (3 / 2)⟩ := by decide +kernel
  rw [hfound] at hcost
  rw [hcall] at hbest
  cases hcost
  cases hbest
  exact ⟨wide, enough, hfound, isLeast, hcall, isBest⟩

end Exact

end Pairing

end Equational
