import Equational.Heuristic.Pairing
import Equational.TermGraph
import Std.Data.HashMap

/-!
# Distance of terms

Two variables are at distance nothing, a variable and anything else at distance one. Two
symbols that differ cost the mismatch cost, and the arguments of two applications are
paired in the cheapest way, where those left over in the longer list cost nothing. Two
equations are as far apart as their sides are in the better orientation.

The distance of two stored terms is the one of the terms. It is worked out on the records,
once for each pair of them, so it takes no longer when records are shared.
-/

namespace Equational

variable {α : Type} [Cost α]

/-- The matrix with rows and columns exchanged, for rows with `columns` entries. -/
def transposed (columns : Nat) (rows : List (List α)) : List (List α) :=
  (List.range columns).map fun j => rows.filterMap fun row => row[j]?

/-- The cheapest pairing of the members of two lists, given their distances. The shorter list is
paired with members of the longer one. -/
def pairingCost (left right : Nat) (distances : List (List α)) : α :=
  if right ≤ left then Pairing.leastCost distances right
  else Pairing.leastCost (transposed right distances) left

namespace Term

mutual
def distance (mismatch : α) : Term → Term → α
  | .var _, .var _ => Cost.zero
  | .var _, _ => Cost.one
  | .const _, .var _ => Cost.one
  | .const a, .const b => if a = b then Cost.zero else mismatch
  | .const _, .app _ _ => mismatch
  | .app _ _, .var _ => Cost.one
  | .app _ _, .const _ => mismatch
  | .app f as, .app g bs =>
    Cost.add (if f = g then Cost.zero else mismatch)
      (pairingCost as.length bs.length (distances mismatch as bs))
/-- The distances of the members of two lists, a row for each member of the first. -/
def distances (mismatch : α) : List Term → List Term → List (List α)
  | [], _ => []
  | a :: as, bs => (bs.map fun b => a.distance mismatch b) :: distances mismatch as bs
end

end Term

/-- The better of two orientations, given the distances of the sides in each. -/
def Cost.orientation (left right leftToRight rightToLeft : α) : α :=
  Cost.least (Cost.add left right) (Cost.add leftToRight rightToLeft)

def Equation.distance (mismatch : α) (a b : Equation) : α :=
  Cost.orientation (a.lhs.distance mismatch b.lhs) (a.rhs.distance mismatch b.rhs)
    (a.lhs.distance mismatch b.rhs) (a.rhs.distance mismatch b.lhs)

namespace TermGraph

abbrev Distances (α : Type) := Std.HashMap (Nat × Nat) α

def distanceFrom (mismatch : α) (a b : TermGraph) :
    Nat → Node → Node → StateM (Distances α) α
  | _, .free _, .free _ => pure Cost.zero
  | _, .free _, _ | _, _, .free _ => pure Cost.one
  | _, .const c, .const d => pure (if c = d then Cost.zero else mismatch)
  | _, .const _, .func _ | _, .func _, .const _ | 0, .func _, .func _ => pure mismatch
  | depth + 1, .func i, .func j => do
    match (← get)[(i, j)]?, a.records[i]?, b.records[j]? with
    | some d, _, _ => pure d
    | none, some p, some q =>
      let rows ← p.args.mapM fun x => q.args.mapM fun y => distanceFrom mismatch a b depth x y
      let d := Cost.add (if p.symbol = q.symbol then Cost.zero else mismatch)
        (pairingCost p.arity q.arity rows)
      modify fun known => known.insert (i, j) d
      pure d
    | _, _, _ => pure mismatch

def distance (mismatch : α) (a b : TermGraph) : α :=
  ((distanceFrom mismatch a b a.size a.root b.root).run ∅).1

end TermGraph

end Equational
