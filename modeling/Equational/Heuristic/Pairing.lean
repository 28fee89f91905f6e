/-!
# Cheapest pairings

Every column of a matrix is given a row of its own, at the cost of the entry where they
meet. The cheapest way is found by branch and bound: columns are taken in order, rows
from the first that is free, and a partial pairing that already costs as much as the best
complete one is given up.

The search is the same for any kind of cost, exact or rounded.
-/

namespace Equational

class Cost (α : Type) where
  zero : α
  one : α
  add : α → α → α
  reaches : α → α → Bool
  least : α → α → α

instance : Cost Float32 where
  zero := 0
  one := 1
  add a b := a + b
  reaches a b := a >= b
  least a b := if b < a then b else a

namespace Pairing

variable {α : Type} [Cost α]

/-- The ways to give the first column a row: the entry there, and the other rows without their
first entries. -/
def firstChoices (rows : List (List α)) : List (α × List (List α)) :=
  (List.range rows.length).filterMap fun i =>
    match rows[i]? with
    | some (entry :: _) => some (entry, (rows.eraseIdx i).map List.tail)
    | _ => none

def improve (cost : α) : Option α → α
  | none => cost
  | some best => Cost.least best cost

/-- Continues a partial pairing of the given cost through `columns` more columns, and gives the
best cost known then. -/
def search : (columns : Nat) → List (List α) → α → Option α → Option α
  | 0, _, cost, best => some (improve cost best)
  | columns + 1, rows, cost, best =>
    if best.any (Cost.reaches cost) then best
    else
      (firstChoices rows).foldl
        (fun best (entry, others) => search columns others (Cost.add cost entry) best) best

/-- The least cost of giving each column a row of its own. There have to be enough rows. -/
def leastCost (rows : List (List α)) (columns : Nat) : α :=
  (search columns rows Cost.zero none).getD Cost.zero

end Pairing

end Equational
