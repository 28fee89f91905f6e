import Equational.Heuristic.Distance
import Equational.Heuristic.Marking
import Equational.Statement
import Equational.TermGraph.Fold

/-!
# Distances worked off from an agenda

The distance of two stored terms is found without recursion. Every pair of nodes that is met gets a
score, once. A pair of records is met twice: first it puts all pairs of their arguments on the
agenda and itself below them, and then it looks up the scores of these pairs.

A score that is looked up and is not there, and a record that is missing, are violations. Records
that lead in a circle are never done with, so the work is given up after as many tasks as two tables
of these sizes can ask for.
-/

namespace Equational

deriving instance Hashable for Node

namespace TermGraph

variable {α : Type} [Cost α]

inductive ScoreTask where
  | enter (x y : Node)
  | combine (i j : Nat)
  deriving Repr

abbrev Scores (α : Type) := Std.HashMap (Node × Node) α

def scoreOf (scores : Scores α) (x y : Node) : Checked α :=
  Violation.scoreMissing.unless scores[(x, y)]?

def symbolCost (mismatch : α) (f g : Nat) : α := if f = g then Cost.zero else mismatch

/-- The scores of all pairs of arguments, a row for each member of the longer list. -/
def argumentScores (scores : Scores α) (p q : Record) : Checked (List (List α)) :=
  if q.arity ≤ p.arity then p.args.mapM fun x => q.args.mapM fun y => scoreOf scores x y
  else q.args.mapM fun y => p.args.mapM fun x => scoreOf scores x y

def leafScore (mismatch : α) : Node → Node → α
  | .free _, .free _ => Cost.zero
  | .free _, _ | _, .free _ => Cost.one
  | .const c, .const d => symbolCost mismatch c d
  | _, _ => mismatch

/-- What a pair without a score asks for. Pairs of arguments are entered from the last one on. -/
def enterNew (mismatch : α) (a b : TermGraph) (scores : Scores α) :
    Node → Node → Checked (List ScoreTask × Scores α)
  | .func i, .func j => do
    let p ← a.recordAt i
    let q ← b.recordAt j
    let pairs := p.args.flatMap fun x => q.args.map fun y => ScoreTask.enter x y
    pure (pairs.reverse ++ [.combine i j], scores)
  | x, y => pure ([], scores.insert (x, y) (leafScore mismatch x y))

def scoreTask (mismatch : α) (a b : TermGraph) :
    ScoreTask → Scores α → Checked (List ScoreTask × Scores α)
  | .enter x y, scores =>
    if scores.contains (x, y) then pure ([], scores) else enterNew mismatch a b scores x y
  | .combine i j, scores => do
    let p ← a.recordAt i
    let q ← b.recordAt j
    let rows ← argumentScores scores p q
    let least ← Pairing.leastAssignment rows (min p.arity q.arity)
    let cost := Cost.add (symbolCost mismatch p.symbol q.symbol) (least.getD Cost.zero)
    pure ([], scores.insert (.func i, .func j) cost)

def scoreWithin (count : Nat) (mismatch : α) (a b : TermGraph) : Checked α := do
  let (agenda, scores) ← workOff (scoreTask mismatch a b) count [.enter a.root b.root] ∅
  if agenda.isEmpty then scoreOf scores a.root b.root else .error .endless

def argumentCount (g : TermGraph) : Nat := g.records.foldl (fun n record => n + record.arity) 0

/-- As many tasks as it takes to enter the roots, and to score each pair of records once. -/
def scoringTasks (a b : TermGraph) : Nat :=
  1 + (a.size * b.size + a.argumentCount * b.argumentCount)

def score (mismatch : α) (a b : TermGraph) : Checked α :=
  scoreWithin (scoringTasks a b) mismatch a b

end TermGraph

def Statement.score {α : Type} [Cost α] (mismatch : α) (a b : Statement) : Checked α := do
  let left ← a.lhs.graph.score mismatch b.lhs.graph
  let right ← a.rhs.graph.score mismatch b.rhs.graph
  let leftToRight ← a.lhs.graph.score mismatch b.rhs.graph
  let rightToLeft ← a.rhs.graph.score mismatch b.lhs.graph
  pure (Cost.orientation left right leftToRight rightToLeft)

end Equational
