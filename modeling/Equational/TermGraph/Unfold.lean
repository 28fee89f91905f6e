import Equational.TermGraph
import Equational.Term

/-!
# The term of a graph

Following the arguments from the root unfolds a graph to the term it stores. A way that
meets no record twice is at most as long as the table, so unfolding to that depth reaches
every leaf unless the records lead in a circle. A graph with a circle stores no term, and
what is cut off there is a variable.

In the other direction a term is laid out in the table with one record for each of its
applications, arguments before the application that has them.

The positions of a stored term are listed root first and from left to right; each knows
the argument slot that holds it.
-/

namespace Equational

structure Position where
  node : Node
  slot : Option (Nat × Nat)
  deriving DecidableEq, Repr

namespace TermGraph

def unfold (g : TermGraph) : Nat → Node → Term
  | _, .free id => .var id
  | _, .const symbol => .const symbol
  | 0, .func _ => .var 0
  | depth + 1, .func index =>
    match g.records[index]? with
    | some record => .app record.symbol (record.args.map (g.unfold depth))
    | none => .var 0

def termAt (g : TermGraph) (node : Node) : Term := g.unfold g.size node

def term (g : TermGraph) : Term := g.termAt g.root

mutual
def layOut : Term → Array Record → Node × Array Record
  | .var id, records => (.free id, records)
  | .const symbol, records => (.const symbol, records)
  | .app symbol args, records =>
    let (nodes, records) := layOutArgs args records
    (.func records.size, records.push ⟨symbol, nodes⟩)
def layOutArgs : List Term → Array Record → List Node × Array Record
  | [], records => ([], records)
  | t :: ts, records =>
    let (first, records) := layOut t records
    let (rest, records) := layOutArgs ts records
    (first :: rest, records)
end

def ofTerm (t : Term) : TermGraph :=
  let (root, records) := layOut t #[]
  { root, records }

/-- The graph seen from another node. A leaf takes no records with it. -/
def viewAt (g : TermGraph) : Node → Checked TermGraph
  | .func index => g.setRoot (.func index)
  | node => .ok { root := node }

def positionsFrom (g : TermGraph) : Nat → Position → List Position
  | depth, ⟨.func index, slot⟩ =>
    ⟨.func index, slot⟩ ::
      match depth, g.records[index]? with
      | depth + 1, some record =>
        record.args.zipIdx.flatMap fun (node, i) => g.positionsFrom depth ⟨node, some (index, i)⟩
      | _, _ => []
  | _, leaf => [leaf]

def positions (g : TermGraph) : List Position :=
  g.positionsFrom g.size ⟨g.root, none⟩

end TermGraph

end Equational
