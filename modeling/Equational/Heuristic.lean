import Equational.Heuristic.Distance
import Equational.Kernel
import Equational.Source

/-!
# Heuristics

A heuristic predicts how promising a state is. The edit distance heuristic adds up, over
all rules, a contribution that falls with the distance between the forefront and the rule.
A rehearsed heuristic plays back recorded values.
-/

namespace Equational

/-- The cost of a symbol mismatch, and the power to which a distance is raised. -/
structure EditDistance where
  mismatch : Float32
  power : Float32
  deriving BEq, Repr

namespace EditDistance

def make (mismatch power : Float32) : Checked EditDistance := do
  require (mismatch > 0) .mismatchCost
  require (power > 0) .distanceExponent
  pure ⟨mismatch, power⟩

def ofExpressions (h : EditDistance) (a b : Expression) : Float32 :=
  a.graph.distance h.mismatch b.graph

def ofStatements (h : EditDistance) (a b : Statement) : Float32 :=
  Cost.orientation (h.ofExpressions a.lhs b.lhs) (h.ofExpressions a.rhs b.rhs)
    (h.ofExpressions a.lhs b.rhs) (h.ofExpressions a.rhs b.lhs)

def contribution (h : EditDistance) (d : Float32) : Float32 :=
  if d == 0 then 1 else 1 / (d.pow h.power + 1)

def utility (h : EditDistance) (distances : List Float32) : Float32 :=
  (distances.map h.contribution).foldl (· + ·) (-0.0)

def predict (h : EditDistance) (rules : List Rule) (s : Statement) : Float32 :=
  h.utility (rules.map fun rule => h.ofStatements s rule.statement)

end EditDistance

/-- A way to predict the benefit of a state, larger is better. It may draw on the source, but leaves
the rules alone. -/
structure Heuristic where
  predict : ProofState → Draws Float32
  fixed : ∀ s source, ((predict s).runOn source).2.rules = source.rules

def EditDistance.heuristic (h : EditDistance) : Heuristic where
  predict s := do pure (h.predict (← Draws.rules) s.statement)
  fixed _ _ := rfl

theorem Draws.fixed_play (tape : Nat) (values : Array Float32) (source : Source) :
    ((Draws.play tape values).runOn source).2.rules = source.rules := by
  show (play tape values source).2.rules = _
  unfold play
  dsimp only
  split
  · rfl
  · rfl

def Heuristic.rehearsed (tape : Nat) (values : Array Float32) : Heuristic where
  predict _ := Draws.play tape values
  fixed _ := Draws.fixed_play tape values

end Equational
