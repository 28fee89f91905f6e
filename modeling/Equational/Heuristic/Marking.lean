import Equational.Heuristic.Pairing
import Equational.Violation

/-!
# Pairings in place

The cheapest pairing is found here without copies of the matrix. A row that is given to a column is
marked as in use, and the mark is taken away when the search comes back from the columns after it.
The marks and the best cost are passed along through the whole search.

Marks and entries are looked up by number. A number outside of the matrix is a violation.
-/

namespace Equational

namespace Pairing

variable {α : Type}

/-- The rows in use, and the cost of the best complete pairing so far. Without one, every cost is an
improvement. -/
structure Progress (α : Type) where
  inUse : Array Bool
  best : Option α := none
  deriving DecidableEq, Repr

namespace Progress

def start (α : Type) (rows : Nat) : Progress α := { inUse := Array.replicate rows false }

def isInUse (p : Progress α) (row : Nat) : Checked Bool :=
  (Violation.indexOutOfRange row).unless p.inUse[row]?

def mark (p : Progress α) (row : Nat) (used : Bool) : Checked (Progress α) := do
  require (row < p.inUse.size) (.indexOutOfRange row)
  pure { p with inUse := p.inUse.setIfInBounds row used }

end Progress

def entryAt (rows : List (List α)) (row column : Nat) : Checked α := do
  let entries ← (Violation.indexOutOfRange row).unless rows[row]?
  (Violation.indexOutOfRange column).unless entries[column]?

variable [Cost α]

/-- Gives a row that is free to the column, goes on from there, and takes the row back. -/
def tryRow (rows : List (List α)) (column : Nat) (cost : α)
    (goOn : α → Progress α → Checked (Progress α)) (p : Progress α) (row : Nat) :
    Checked (Progress α) := do
  if ← p.isInUse row then pure p
  else
    let p ← p.mark row true
    let entry ← entryAt rows row column
    let p ← goOn (Cost.add cost entry) p
    p.mark row false

/-- Continues a partial pairing of the given cost through `columns` more columns, of which the first
has the number `column`. -/
def assign (rows : List (List α)) :
    (columns : Nat) → (column : Nat) → α → Progress α → Checked (Progress α)
  | 0, _, cost, p => pure { p with best := some (improve cost p.best) }
  | columns + 1, column, cost, p =>
    if p.best.any (Cost.reaches cost) then pure p
    else
      (List.range rows.length).foldlM
        (tryRow rows column cost (assign rows columns (column + 1))) p

/-- The least cost of giving each column a row of its own, if there are enough rows. -/
def leastAssignment (rows : List (List α)) (columns : Nat) : Checked (Option α) := do
  if columns = 0 then pure (some Cost.zero)
  else
    let p ← assign rows columns 0 Cost.zero (.start α rows.length)
    pure p.best

end Pairing

end Equational
