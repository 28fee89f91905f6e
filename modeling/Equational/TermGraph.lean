import Equational.Term
import Equational.Violation

/-!
# Term graphs

A term can be stored as a table of records, one for each application: its symbol and,
for each argument, a leaf or the number of another record. Records may be shared between
arguments, may be out of reach of the root, and may stand in any order. The operations
below keep every number in range: the root and all arguments name records that exist.
-/

namespace Equational

inductive NodeKind where
  | free
  | const
  | func
  deriving DecidableEq, Repr, Inhabited

namespace NodeKind

def name : NodeKind → String
  | .free => "free"
  | .const => "const"
  | .func => "func"

def ofName? : String → Option NodeKind
  | "free" => some .free
  | "const" => some .const
  | "func" => some .func
  | _ => none

end NodeKind

inductive Node where
  | free (id : Nat)
  | const (symbol : Nat)
  | func (index : Nat)
  deriving DecidableEq, Repr, Inhabited

namespace Node

def kind : Node → NodeKind
  | .free _ => .free
  | .const _ => .const
  | .func _ => .func

def id : Node → Nat
  | .free id => id
  | .const symbol => symbol
  | .func index => index

def ofKind : NodeKind → Nat → Node
  | .free, id => .free id
  | .const, symbol => .const symbol
  | .func, index => .func index

def offset (offset : Nat) : Node → Node
  | .func index => .func (index + offset)
  | leaf => leaf

end Node

structure Record where
  symbol : Nat
  args : List Node
  deriving DecidableEq, Repr, Inhabited

namespace Record

def arity (r : Record) : Nat := r.args.length

def offset (offset : Nat) (r : Record) : Record := ⟨r.symbol, r.args.map (Node.offset offset)⟩

end Record

structure TermGraph where
  root : Node := .free 0
  records : Array Record := #[]
  deriving DecidableEq, Repr, Inhabited

namespace TermGraph

def empty : TermGraph := {}

def size (g : TermGraph) : Nat := g.records.size

def holds (g : TermGraph) : Node → Bool
  | .func index => index < g.size
  | _ => true

def leaf : Node → Checked TermGraph
  | .func _ => .error .functionLeaf
  | node => .ok { root := node }

/-- Moves the root. A graph with a leaf at its root keeps no records. -/
def setRoot (g : TermGraph) : Node → Checked TermGraph
  | .func index =>
    if index < g.size then .ok { g with root := .func index } else .error (.rootOutOfRange index)
  | node => .ok { root := node }

def missing? (g : TermGraph) (args : List Node) : Option Node :=
  args.find? fun node => !g.holds node

/-- Adds a record at the end of the table. Its number is the former size. -/
def add (g : TermGraph) (symbol : Nat) (args : List Node) : Checked TermGraph :=
  if args.isEmpty then .error .recordWithoutArguments
  else
    match g.missing? args with
    | some node => .error (.childNotStored node.id)
    | none => .ok { g with records := g.records.push ⟨symbol, args⟩ }

/-- Adds a record whose arguments are given as two lists, their ids and their kinds. -/
def addColumns (g : TermGraph) (symbol : Nat) (ids : List Nat) (kinds : List NodeKind) :
    Checked TermGraph :=
  if ids.isEmpty then .error .recordWithoutArguments
  else if ids.length ≠ kinds.length then .error .columnsDiffer
  else g.add symbol (List.zipWith Node.ofKind kinds ids)

def setArg (g : TermGraph) (index slot : Nat) (node : Node) : Checked TermGraph :=
  match g.records[index]? with
  | none => .error (.recordOutOfRange index)
  | some record =>
    if record.arity ≤ slot then .error (.argumentOutOfRange slot record.arity)
    else if !g.holds node then .error (.childNotStored node.id)
    else .ok { g with
      records := g.records.setIfInBounds index ⟨record.symbol, record.args.set slot node⟩ }

/-- Copies all records of another graph to the end of the table, and tells where its root
is now. A leaf needs no records. -/
def absorb (g other : TermGraph) : Node × TermGraph :=
  match other.root with
  | .func index =>
    (.func (index + g.size),
      { g with records := g.records ++ other.records.map (Record.offset g.size) })
  | leaf => (leaf, g)

end TermGraph

end Equational
