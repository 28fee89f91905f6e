import Equational.TermGraph.Unfold

/-!
# Editing term graphs

Variables are relabelled in every record, within reach of the root or not. A variable is
replaced by a graph by copying that graph's records once for each occurrence, and an
argument slot is replaced by copying them once; neither looks into the copies again.
-/

namespace Equational

namespace TermGraph

def relabelNode (label : Nat → Option Node) : Node → Node
  | .free id => (label id).getD (.free id)
  | node => node

def labels (g : TermGraph) : List Nat :=
  match g.root with
  | .free id => [id]
  | _ => g.records.toList.flatMap fun r => r.args.filterMap fun node =>
    match node with
    | .free id => some id
    | _ => none

def relabel (g : TermGraph) (label : Nat → Option Node) : TermGraph :=
  match g.root with
  | .free id =>
    match label id with
    | some node => { root := node }
    | none => g
  | root =>
    { root
      records := g.records.map fun r => ⟨r.symbol, r.args.map (relabelNode label)⟩ }

/-- Replaces variables among the arguments of one record. The table grows by the copies. -/
def fillArgs (image : Nat → Option TermGraph) : List Node → TermGraph → List Node × TermGraph
  | [], g => ([], g)
  | .free id :: rest, g =>
    match image id with
    | some other =>
      let (node, g) := g.absorb other
      let (nodes, g) := fillArgs image rest g
      (node :: nodes, g)
    | none =>
      let (nodes, g) := fillArgs image rest g
      (.free id :: nodes, g)
  | node :: rest, g =>
    let (nodes, g) := fillArgs image rest g
    (node :: nodes, g)

def fillRecords (image : Nat → Option TermGraph) : Nat → Nat → TermGraph → TermGraph
  | 0, _, g => g
  | count + 1, index, g =>
    match g.records[index]? with
    | none => g
    | some record =>
      let (args, g) := fillArgs image record.args g
      fillRecords image count (index + 1)
        { g with records := g.records.setIfInBounds index ⟨record.symbol, args⟩ }

/-- Replaces each variable that has an image by a copy of it, one copy for each occurrence.
This is for graphs that have a record at the root and use each record once. -/
def fill (g : TermGraph) (image : Nat → Option TermGraph) : TermGraph :=
  fillRecords image g.size 0 g

def replaceArg (g : TermGraph) (index slot : Nat) (other : TermGraph) : Checked TermGraph :=
  let (node, g) := g.absorb other
  g.setArg index slot node

end TermGraph

end Equational
