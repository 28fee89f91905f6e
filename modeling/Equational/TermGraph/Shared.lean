import Equational.TermGraph.Unfold

/-!
# Shared term graphs

Copies of a graph share their table of records until one of them is changed. The number of
the table tells which graphs share one. A change gives a graph a table of its own, which
gets a number before the graph is copied.
-/

namespace Equational

/-- A computation that hands out numbers. The state is the least number not handed out yet. -/
abbrev Numbering := StateM Nat

namespace Numbering

def fresh : Numbering Nat := modifyGet fun n => (n, n + 1)

def keepOr : Option Nat → Numbering (Option Nat)
  | some n => pure (some n)
  | none => some <$> fresh

end Numbering

structure SharedGraph where
  graph : TermGraph
  table : Option Nat := none
  deriving DecidableEq, Repr

namespace SharedGraph

def own (g : TermGraph) : SharedGraph := { graph := g }

def number (g : SharedGraph) : Numbering SharedGraph := do
  pure { g with table := ← Numbering.keepOr g.table }

/-- Both have the same table. A table without a number is nobody else's. -/
def shares (a b : SharedGraph) : Bool := a.table.isSome && a.table == b.table

def size (g : SharedGraph) : Nat := g.graph.size

def term (g : SharedGraph) : Term := g.graph.term

/-- Moves the root. The table changes if there are records to drop. -/
def setRoot (g : SharedGraph) (node : Node) : Checked SharedGraph := do
  let graph ← g.graph.setRoot node
  pure (if graph.size = g.size then { g with graph } else own graph)

def addColumns (g : SharedGraph) (symbol : Nat) (ids : List Nat) (kinds : List NodeKind) :
    Checked SharedGraph := do
  pure (own (← g.graph.addColumns symbol ids kinds))

def setArg (g : SharedGraph) (index slot : Nat) (node : Node) : Checked SharedGraph := do
  pure (own (← g.graph.setArg index slot node))

/-- Copies the records of another graph, and tells where its root is now. Nothing changes when
the other graph is a leaf. -/
def absorb (g : SharedGraph) (other : TermGraph) : Node × SharedGraph :=
  let (node, graph) := g.graph.absorb other
  (node, if node.kind = .func then own graph else g)

/-- The graph seen from another node. A record is seen in the same table, a leaf takes nothing
with it. -/
def viewAt (g : SharedGraph) : Node → Checked SharedGraph
  | .func index => g.setRoot (.func index)
  | node => .ok (own { root := node })

end SharedGraph

end Equational
