import Equational.Cursor
import Equational.Heuristic
import Equational.Ranking

/-!
# Plans

A plan says how a search goes through the successors of a state: as they are enumerated,
or, if both a heuristic and a stopping strategy are chosen, ranked.
-/

namespace Equational

def Cursor.rank (h : Heuristic) (strategy : Strategy) (c : Cursor) : Draws Cursor := do
  let supply ← Reply.toDraws (c.supply.rank h.predict { strategy })
  pure ⟨.ranking, supply⟩

structure Plan where
  heuristic : Option Heuristic := none
  stopping : Option Stopping := none

namespace Plan

def setFixed (p : Plan) (size : Nat) : Checked Plan := do
  require (1 ≤ size) .fixedSize
  pure { p with stopping := some (.fixed size) }

def setBasic (p : Plan) (fill : Nat) (lambda alpha : Float32) : Checked Plan := do
  require (1 < fill && lambda > 0 && alpha > 0 && alpha < 1) .basicParameters
  pure { p with stopping := some (.basic fill lambda alpha) }

def arrange (p : Plan) (c : Cursor) : Draws Cursor :=
  match p.heuristic, p.stopping with
  | some h, some stopping => do c.rank h (← stopping.start)
  | _, _ => pure c

def successors (p : Plan) (k : Kernel) (s : ProofState) : Draws Cursor := do
  p.arrange (← k.cursor s)

def summary (p : Plan) : String :=
  let heuristic := p.heuristic.isSome
  let stopping := p.stopping.isSome
  s!"IteratorManager \x7b heuristic: {heuristic}, stopping_strategy: {stopping} \x7d"

end Plan

end Equational
