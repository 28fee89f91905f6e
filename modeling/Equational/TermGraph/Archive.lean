import Equational.TermGraph

/-!
# Archives of term graphs

An archive is a sequence of bytes. It holds the root of a graph, its id as a word of eight
bytes and its kind as one of four, and then four columns: the symbols of the records,
their arities, the ids of their arguments, and the kinds of their arguments. A column is
its length and its items; all words have their lowest byte first.

Reading checks that the columns fit together and that every argument names an earlier
record, so what is read has no circles. A graph is read from the front, and what follows
it is left.
-/

namespace Equational

inductive Malformation where
  | columnsDiffer
  | rootOutside (root size : Nat)
  | inconsistentArity (record : Nat)
  | notPreceding (record : Nat)
  | arityAboveLimit (record arity limit : Nat)
  deriving DecidableEq, Repr

def Malformation.message : Malformation → String
  | .columnsDiffer => "record arrays differ in length"
  | .rootOutside root size => s!"root {root} outside {size} records"
  | .inconsistentArity record => s!"record {record} has inconsistent arity"
  | .notPreceding record => s!"record {record} refers to a record that does not precede it"
  | .arityAboveLimit record arity limit =>
    s!"record {record} has arity {arity}, above the limit of {limit}"

inductive ArchiveError where
  | tooShort
  | unknownKind (tag : Nat)
  | malformed (cause : Malformation)
  | unknownSymbol (id : Nat)
  deriving DecidableEq, Repr

/-- The wording of an error in the contents. Bytes that cannot be read at all have none. -/
def ArchiveError.message : ArchiveError → Option String
  | .tooShort | .unknownKind _ => none
  | .malformed cause =>
    let cause := cause.message
    s!"malformed archive: {cause}"
  | .unknownSymbol id =>
    s!"archive refers to symbol id {id}, which the model context does not define"

namespace Archive

abbrev Bytes := List UInt8

def word : (width : Nat) → Nat → Bytes
  | 0, _ => []
  | width + 1, n => UInt8.ofNat n :: word width (n / 256)

def kindTag : NodeKind → Nat
  | .free => 0
  | .const => 1
  | .func => 2

def putId (n : Nat) : Bytes := word 8 n

def putKind (kind : NodeKind) : Bytes := word 4 (kindTag kind)

def putList {α : Type} (put : α → Bytes) (items : List α) : Bytes :=
  putId items.length ++ items.flatMap put

abbrev Reader (α : Type) := Bytes → Except ArchiveError (α × Bytes)

def takeWord : (width : Nat) → Reader Nat
  | 0, bytes => .ok (0, bytes)
  | _ + 1, [] => .error .tooShort
  | width + 1, b :: bytes =>
    match takeWord width bytes with
    | .ok (n, rest) => .ok (b.toNat + 256 * n, rest)
    | .error e => .error e

def takeId : Reader Nat := takeWord 8

def takeKind : Reader NodeKind := fun bytes =>
  match takeWord 4 bytes with
  | .ok (0, rest) => .ok (.free, rest)
  | .ok (1, rest) => .ok (.const, rest)
  | .ok (2, rest) => .ok (.func, rest)
  | .ok (tag, _) => .error (.unknownKind tag)
  | .error e => .error e

def takeMany {α : Type} (take : Reader α) : Nat → Reader (List α)
  | 0, bytes => .ok ([], bytes)
  | count + 1, bytes =>
    match take bytes with
    | .ok (item, rest) =>
      match takeMany take count rest with
      | .ok (items, rest) => .ok (item :: items, rest)
      | .error e => .error e
    | .error e => .error e

def takeList {α : Type} (take : Reader α) : Reader (List α) := fun bytes =>
  match takeId bytes with
  | .ok (count, rest) => takeMany take count rest
  | .error e => .error e

structure Columns where
  root : Node
  symbols : List Nat
  arities : List Nat
  ids : List (List Nat)
  kinds : List (List NodeKind)
  deriving DecidableEq, Repr

namespace Columns

def ofGraph (g : TermGraph) : Columns :=
  let records := g.records.toList
  { root := g.root
    symbols := records.map Record.symbol
    arities := records.map Record.arity
    ids := records.map fun r => r.args.map Node.id
    kinds := records.map fun r => r.args.map Node.kind }

def put (c : Columns) : Bytes :=
  putId c.root.id ++ putKind c.root.kind ++ putList putId c.symbols ++ putList putId c.arities ++
    putList (putList putId) c.ids ++ putList (putList putKind) c.kinds

def take : Reader Columns := fun bytes => do
  let (id, bytes) ← takeId bytes
  let (kind, bytes) ← takeKind bytes
  let (symbols, bytes) ← takeList takeId bytes
  let (arities, bytes) ← takeList takeId bytes
  let (ids, bytes) ← takeList (takeList takeId) bytes
  let (kinds, bytes) ← takeList (takeList takeKind) bytes
  pure ({ root := .ofKind kind id, symbols, arities, ids, kinds }, bytes)

/-- The record with the given number, if its columns agree and it names earlier records only. -/
def record (index symbol arity : Nat) (ids : List Nat) (kinds : List NodeKind) :
    Except Malformation Record :=
  if arity = 0 ∨ ids.length ≠ arity ∨ kinds.length ≠ arity then
    .error (.inconsistentArity index)
  else
    let args := List.zipWith Node.ofKind kinds ids
    if args.any fun node => node.kind = .func && index ≤ node.id then
      .error (.notPreceding index)
    else .ok ⟨symbol, args⟩

def recordsFrom (index : Nat) : List Nat → List Nat → List (List Nat) → List (List NodeKind) →
    Except Malformation (List Record)
  | symbol :: symbols, arity :: arities, ids :: idss, kinds :: kindss => do
    let first ← record index symbol arity ids kinds
    let rest ← recordsFrom (index + 1) symbols arities idss kindss
    pure (first :: rest)
  | _, _, _, _ => pure []

def graph (c : Columns) : Except Malformation TermGraph := do
  let size := c.symbols.length
  if c.arities.length ≠ size ∨ c.ids.length ≠ size ∨ c.kinds.length ≠ size then
    throw .columnsDiffer
  if c.root.kind = .func && size ≤ c.root.id then
    throw (.rootOutside c.root.id size)
  let records ← recordsFrom 0 c.symbols c.arities c.ids c.kinds
  match c.root with
  | .func index => pure { root := .func index, records := records.toArray }
  | leaf => pure { root := leaf }

end Columns

end Archive

namespace TermGraph

def save (g : TermGraph) : Archive.Bytes := (Archive.Columns.ofGraph g).put

def load : Archive.Reader TermGraph := fun bytes =>
  match Archive.Columns.take bytes with
  | .ok (columns, rest) =>
    match columns.graph with
    | .ok g => .ok (g, rest)
    | .error cause => .error (.malformed cause)
  | .error e => .error e

end TermGraph

end Equational
