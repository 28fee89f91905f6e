import Equational.Stopping
import Equational.Supply

/-!
# Ranking

The items of a supply are reordered by predicted benefit. Items are taken in until the
stopping strategy is satisfied; the best of them is then given, and so on. When the supply
is used up, what was taken in is given to the end, best first. Of items with the same
benefit the one that was taken in first comes first.

If no more items can be taken in, what was taken in before stays at hand.
-/

namespace Equational

variable {α : Type}

/-- What a ranking has taken in and not given yet, best first, and how many it has taken. -/
structure Ranking (α : Type) where
  strategy : Strategy
  buffer : List (Float32 × α) := []
  taken : Nat := 0

namespace Ranking

def leastCost : Float32 := 1e-9

def costOf (seconds : Float32) : Float32 := if leastCost < seconds then seconds else leastCost

def take (r : Ranking α) (benefit cost : Float32) (item : α) : Checked Unit × Ranking α :=
  match r.strategy.add benefit cost with
  | (.ok (), strategy) =>
    (.ok (),
      { strategy
        buffer := Benefit.insert Prod.fst (benefit, item) r.buffer
        taken := r.taken + 1 })
  | (.error cause, strategy) => (.error cause, { r with strategy })

def serveAll (taken : Nat) : List (Float32 × α) → Supply α
  | [] => .done { taken }
  | (_, item) :: rest =>
    .item item { size := rest.length + 1, kept := rest.length + 1, taken }
      fun source => .rest (serveAll taken rest) source

/-- Gives what was taken in for as long as the strategy is satisfied, and then lets `takeMore` go
on from what is left. `size` is the work that the supply still holds. -/
def serve (size taken : Nat) (takeMore : Ranking α → Supply α → Source → Reply α) :
    List (Float32 × α) → Strategy → Supply α
  | [], _ => .done { taken }
  | (_, item) :: rest, strategy =>
    .item item { size := (rest.length + 1) * size, kept := rest.length + 1, taken } fun source =>
      match strategy.removeBest with
      | .error cause => .broken cause (serve size taken takeMore rest strategy) source
      | .ok strategy =>
        let left := serve size taken takeMore rest strategy
        if strategy.isStopped then .rest left source
        else takeMore { strategy, buffer := rest, taken } left source

end Ranking

mutual
def Supply.rank (predict : α → Draws Float32) : Supply α → Ranking α → Source → Reply α
  | .done _, r, source => .rest (Ranking.serveAll r.taken r.buffer) source
  | .item value gauge next, r, source =>
    if r.strategy.isStopped then
      .rest (Ranking.serve gauge.size r.taken
        (fun r _ source => (next source).rank predict value r) r.buffer r.strategy) source
    else (next source).rank predict value r
  | .stuck level gauge, r, source =>
    let refuse := fun left source => Reply.broken (.exhausted .get level.text) left source
    let left := Ranking.serve gauge.size r.taken (fun _ => refuse) r.buffer r.strategy
    if r.strategy.isStopped then .rest left source else refuse left source
def Supply.ranked (predict : α → Draws Float32) : Supply α → Ranking α → Supply α
  | .done _, r => Ranking.serveAll r.taken r.buffer
  | .item value gauge next, r =>
    Ranking.serve gauge.size r.taken
      (fun r _ source => (next source).rank predict value r) r.buffer r.strategy
  | .stuck level gauge, r =>
    Ranking.serve gauge.size r.taken
      (fun _ left source => .broken (.exhausted .get level.text) left source) r.buffer r.strategy
def Reply.rank (predict : α → Draws Float32) : Reply α → α → Ranking α → Reply α
  | .rest supply source, value, r =>
    match (predict value).runOn source with
    | (.error cause, source) => .broken cause (supply.ranked predict r) source
    | (.ok benefit, source) =>
      let (seconds, source) := source.takeTime
      match r.take benefit (Ranking.costOf seconds) value with
      | (.ok (), r) => supply.rank predict r source
      | (.error cause, r) => .broken cause (supply.ranked predict r) source
  | .broken cause left source, _, r => .broken cause (left.ranked predict r) source
end

end Equational
