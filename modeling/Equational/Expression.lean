import Equational.Formula
import Equational.Term.Renaming
import Equational.TermGraph.Edit
import Equational.TermGraph.Handlers
import Equational.TermGraph.Shared

/-!
# Expressions

An expression is a stored term of a context. What it says is its term; how it is stored
shows in its positions, in its archive, and in what an edit of one position touches. An
operation that changes nothing gives back the same storage, and so does a view of a part
that has records.

Sets of variables and maps from variables are rows of limited length, so an operation fails on
variables that are too far apart.
-/

namespace Equational

structure Expression where
  ctx : Context
  stored : SharedGraph
  deriving DecidableEq, Repr

namespace Expression

def graph (e : Expression) : TermGraph := e.stored.graph

def term (e : Expression) : Term := e.graph.term

def ofGraph (ctx : Context) (g : TermGraph) : Expression := ⟨ctx, .own g⟩

def ofTerm (ctx : Context) (t : Term) : Expression := ofGraph ctx (.ofTerm t)

def withGraph (e : Expression) (g : TermGraph) : Expression := ofGraph e.ctx g

def number (e : Expression) : Numbering Expression := do
  pure { e with stored := ← e.stored.number }

def text (e : Expression) : Checked String := e.graph.text e.ctx

def summary (e : Expression) : Checked String := do
  let text ← e.text
  pure s!"Expression({text})"

def height (e : Expression) : Checked Nat := e.graph.height

def freeIds (e : Expression) : Checked DenseSet := e.graph.freeIds

/-! ### Construction -/

def free (ctx : Context) (id : Nat) : Expression := ofGraph ctx { root := .free id }

def constant (ctx : Context) (symbol : Nat) : Checked Expression := do
  let arity ← ctx.arityOf symbol
  let name ← ctx.nameOf symbol
  require (arity == 0) (.notConstant name)
  pure (ofGraph ctx { root := .const symbol })

def gather : List Expression → TermGraph → List Node × TermGraph
  | [], g => ([], g)
  | e :: es, g =>
    let (node, g) := g.absorb e.graph
    let (nodes, g) := gather es g
    (node :: nodes, g)

def func (ctx : Context) (symbol : Nat) (args : List Expression) : Checked Expression := do
  let arity ← ctx.arityOf symbol
  let name ← ctx.nameOf symbol
  require (arity == args.length) (.argumentCount name)
  let (nodes, g) := gather args .empty
  let index := g.size
  let g ← g.add symbol nodes
  let g ← g.setRoot (.func index)
  pure (ofGraph ctx g)

def ofFormula (ctx : Context) (f : Formula) : Checked Expression := do
  let t ← f.term
  pure (ofTerm ctx t)

def withContext (e : Expression) (ctx : Context) : Checked Expression := do
  require (ctx.isExtensionOf e.ctx) (.notAnExtension ctx.name e.ctx.name)
  pure { e with ctx }

/-! ### Parts -/

def viewAt (e : Expression) (node : Node) : Checked Expression := do
  pure { e with stored := ← e.stored.viewAt node }

def rootSymbol? (e : Expression) : Option Nat :=
  match e.graph.root with
  | .free _ => none
  | .const symbol => some symbol
  | .func index => (e.graph.records[index]?).map Record.symbol

def children (e : Expression) : Checked (List Expression) :=
  match e.graph.root with
  | .func index => ((e.graph.records[index]?).elim [] Record.args).mapM e.viewAt
  | _ => pure []

def positions (e : Expression) : List Position := e.graph.positions

/-! ### Comparison -/

def identical (a b : Expression) : Bool := a.term == b.term

structure RenamingRows where
  forward : DenseMap Nat := .empty
  backward : DenseMap Nat := .empty

/-- Variables that meet are sent to each other, unless one of them has another partner. -/
def pairing : TermGraph.PairReduction (StateT RenamingRows Checked) Bool where
  free a b := do
    let rows ← get
    match ← rows.forward.get? a, ← rows.backward.get? b with
    | none, none =>
      let (_, forward) ← rows.forward.insert a b
      let (_, backward) ← rows.backward.insert b a
      set ({ forward, backward } : RenamingRows)
      pure true
    | some image, some origin => pure (image == b && origin == a)
    | _, _ => pure false
  const a b := pure (a == b)
  func a b args := pure (a == b && args.all id)
  other _ _ := pure false

/-- Continues a renaming so that it takes one expression to the other, and tells whether it does. -/
def equivalentUnder (a b : Expression) (rows : RenamingRows) : Checked (Bool × RenamingRows) :=
  TermGraph.foldPairFrom pairing a.graph b.graph rows

def equivalent (a b : Expression) : Checked Bool := do
  pure (← a.equivalentUnder b {}).1

/-- Binds a variable of the pattern that has no binding yet, and compares otherwise. -/
def bindOr (id : Nat) (part : Expression) (agrees : Expression → Bool) :
    StateT (DenseMap Expression) Checked Bool := do
  let bound ← get
  match ← bound.get? id with
  | some kept => pure (agrees kept)
  | none =>
    let (_, bound) ← bound.insert id part
    set bound
    pure true

def matching (target : Expression) :
    TermGraph.PairReduction (StateT (DenseMap Expression) Checked) Bool where
  free a b := bindOr a (free target.ctx b) fun kept => kept.graph.root == .free b
  const a b := pure (a == b)
  func a b args := pure (a == b && args.all id)
  other
    | .free id, node => do
      let part ← target.viewAt node
      bindOr id part fun kept => kept.identical part
    | _, _ => pure false

/-- Matches a pattern, given what its variables are bound to already, and tells whether it does. -/
def matchInto (pattern target : Expression) (bound : DenseMap Expression) :
    Checked (Bool × DenseMap Expression) :=
  TermGraph.foldPairFrom (matching target) pattern.graph target.graph bound

def match? (pattern target : Expression) : Checked (Bool × DenseMap Expression) := do
  let (matched, bound) ← pattern.matchInto target .empty
  pure (if matched then (true, bound) else (false, .empty))

/-! ### Change -/

def compact (e : Expression) : Checked Expression :=
  match e.graph.root with
  | .func _ => do pure (e.withGraph (← e.graph.compact))
  | _ => pure e

/-- Replaces the variables that have an image, each occurrence by a copy of its own. A variable
alone becomes its image, with the image's context. -/
def mapFree (e : Expression) (images : DenseMap Expression) : Checked Expression :=
  match e.graph.root with
  | .free id => pure ((images.lookup id).getD e)
  | .const _ => pure e
  | .func _ => do
    let ids ← e.freeIds
    if ids.keys.any fun id => (images.lookup id).isSome then
      let g ← e.graph.compact
      pure (e.withGraph (g.fill fun id => (images.lookup id).map Expression.graph))
    else pure e

/-- Replaces what an argument slot holds, or the whole expression if no slot is given. -/
def replace (e : Expression) (slot : Option (Nat × Nat)) (new : Expression) :
    Checked Expression :=
  match slot with
  | none => pure new
  | some (index, slot) => do
    pure (e.withGraph (← e.graph.replaceArg index slot new.graph))

def nth? (e : Expression) (n : Nat) : Option (Checked Expression) :=
  e.positions[n]?.map fun p => e.viewAt p.node

def replaceNth? (e : Expression) (n : Nat) (new : Expression) : Option (Checked Expression) :=
  e.positions[n]?.map fun p => e.replace p.slot new

def assignFree (e : Expression) (id : Nat) (leaf : Node) : Checked Expression := do
  let ids ← e.freeIds
  if (ids.lookup id).isSome then
    pure (e.withGraph (e.graph.relabel fun i => if i = id then some leaf else none))
  else pure e

def freeToFree (e : Expression) (id other : Nat) : Checked Expression :=
  e.assignFree id (.free other)

def freeToConst (e : Expression) (id symbol : Nat) : Checked Expression := do
  let arity ← e.ctx.arityOf symbol
  require (arity == 0) .replacementNotConstant
  e.assignFree id (.const symbol)

/-- Moves every variable up, also in records that are out of reach. Each of them has to stay within
a word. -/
def shift (e : Expression) (n : Nat) : Checked Expression :=
  if n = 0 then pure e
  else do
    let ids ← e.freeIds
    if ids.isEmpty then pure e
    else
      require (e.graph.labels.all fun id => id + n < UInt64.size) .counterOverflow
      pure (e.withGraph (e.graph.relabel fun id => some (.free (id + n))))

end Expression

end Equational
