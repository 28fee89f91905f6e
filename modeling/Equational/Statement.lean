import Equational.Expression
import Equational.Term.Occurrence
import Equational.TermGraph.Archive

/-!
# Statements

A statement is an equation of a context whose sides are stored as graphs. Most of what
can be asked of it is asked of its equation.
-/

namespace Equational

structure Statement where
  ctx : Context
  left : SharedGraph
  right : SharedGraph
  deriving DecidableEq, Repr

namespace Statement

def lhs (s : Statement) : Expression := ⟨s.ctx, s.left⟩

def rhs (s : Statement) : Expression := ⟨s.ctx, s.right⟩

def side (s : Statement) : Side → Expression
  | .lhs => s.lhs
  | .rhs => s.rhs

def equation (s : Statement) : Equation := ⟨s.left.term, s.right.term⟩

def text (s : Statement) : Checked String := do
  let lhs ← s.lhs.text
  let rhs ← s.rhs.text
  pure (equalityText lhs rhs)

def height (s : Statement) : Checked Nat := do
  let left ← s.lhs.height
  let right ← s.rhs.height
  pure (max left right)

def freeIds (s : Statement) : Checked DenseSet := do
  let left ← s.lhs.freeIds
  let right ← s.rhs.freeIds
  left.union right

/-- Every symbol within reach of the roots is declared with the arity it is used at. -/
def isTyped (signature : Signature) (s : Statement) : Checked Bool := do
  let left ← s.lhs.graph.isTyped signature
  let right ← s.rhs.graph.isTyped signature
  pure (left && right)

def isReflexive (s : Statement) : Bool := s.equation.isReflexive

/-! ### Construction -/

def ofSides (lhs rhs : Expression) : Checked Statement := do
  require (lhs.ctx.same rhs.ctx) .contextsDiffer
  pure ⟨lhs.ctx, lhs.stored, rhs.stored⟩

def ofEquation (ctx : Context) (e : Equation) : Statement :=
  ⟨ctx, .own (.ofTerm e.lhs), .own (.ofTerm e.rhs)⟩

def ofFormula (ctx : Context) (f : Formula) : Checked Statement := do
  let e ← f.equation
  pure (ofEquation ctx e)

def withContext (s : Statement) (ctx : Context) : Checked Statement := do
  let lhs ← s.lhs.withContext ctx
  let rhs ← s.rhs.withContext ctx
  ofSides lhs rhs

def number (s : Statement) : Numbering Statement := do
  let left ← s.left.number
  let right ← s.right.number
  pure { s with left, right }

def transpose (s : Statement) : Statement := ⟨s.ctx, s.right, s.left⟩

/-! ### Comparison -/

def identical (a b : Statement) : Bool := a.equation == b.equation

def equivalentTo (s : Statement) (lhs rhs : Expression) : Checked Bool := do
  let (same, rows) ← s.lhs.equivalentUnder lhs {}
  if same then pure (← s.rhs.equivalentUnder rhs rows).1 else pure false

def equivalent (a b : Statement) : Checked Bool := do
  if ← a.equivalentTo b.lhs b.rhs then pure true else a.equivalentTo b.rhs b.lhs

def matchesTo (s : Statement) (lhs rhs : Expression) : Checked Bool := do
  let (matched, bound) ← s.lhs.matchInto lhs .empty
  if matched then pure (← s.rhs.matchInto rhs bound).1 else pure false

/-- The second statement is an instance of the first, in one of its orientations. -/
def implies (a b : Statement) : Checked Bool := do
  if ← a.matchesTo b.lhs b.rhs then pure true else a.matchesTo b.rhs b.lhs

/-! ### Change -/

def positions (s : Statement) : List (Side × Position) :=
  s.lhs.positions.map (Prod.mk .lhs) ++ s.rhs.positions.map (Prod.mk .rhs)

def onSide (s : Statement) (side : Side) (f : Expression → Checked Expression) :
    Checked Statement :=
  match side with
  | .lhs => do ofSides (← f s.lhs) s.rhs
  | .rhs => do ofSides s.lhs (← f s.rhs)

def onSides (s : Statement) (f : Expression → Checked Expression) : Checked Statement := do
  let lhs ← f s.lhs
  let rhs ← f s.rhs
  ofSides lhs rhs

def replace (s : Statement) (side : Side) (slot : Option (Nat × Nat)) (new : Expression) :
    Checked Statement :=
  s.onSide side fun e => e.replace slot new

def nth? (s : Statement) (n : Nat) : Option (Checked Expression) :=
  s.positions[n]?.map fun (side, p) => (s.side side).viewAt p.node

def replaceNth? (s : Statement) (n : Nat) (new : Expression) : Option (Checked Statement) :=
  s.positions[n]?.map fun (side, p) => s.replace side p.slot new

def mapFree (s : Statement) (images : DenseMap Expression) : Checked Statement :=
  s.onSides fun e => e.mapFree images

def freeToFree (s : Statement) (id other : Nat) : Checked Statement :=
  s.onSides fun e => e.freeToFree id other

def freeToConst (s : Statement) (id symbol : Nat) : Checked Statement :=
  s.onSides fun e => e.freeToConst id symbol

def shift (s : Statement) (n : Nat) : Checked Statement := s.onSides fun e => e.shift n

def compact (s : Statement) : Checked Statement := s.onSides Expression.compact

/-! ### Archives -/

def save (s : Statement) : Archive.Bytes := s.left.graph.save ++ s.right.graph.save

/-- Checks one record against the signature: its arity, its symbol, its constants. -/
def checkRecord (ctx : Context) (index : Nat) (r : Record) : Except ArchiveError Unit := do
  if ctx.maxArity < r.arity then
    throw (.malformed (.arityAboveLimit index r.arity ctx.maxArity))
  if !ctx.signature.declares r.symbol r.arity then
    throw (.unknownSymbol r.symbol)
  match r.args.find? fun node => node.kind = .const && !ctx.signature.declares node.id 0 with
  | some node => throw (.unknownSymbol node.id)
  | none => pure ()

/-- Checks that a stored term uses the symbols of the context, in every record. -/
def checkSymbols (ctx : Context) (g : TermGraph) : Except ArchiveError Unit := do
  if g.root.kind = .const && !ctx.signature.declares g.root.id 0 then
    throw (.unknownSymbol g.root.id)
  g.records.toList.zipIdx.forM fun (r, index) => checkRecord ctx index r

/-- Reads a statement of the context. Both sides are read before their symbols are checked. -/
def load (ctx : Context) (bytes : Archive.Bytes) : Except ArchiveError Statement := do
  let (left, bytes) ← TermGraph.load bytes
  let (right, _) ← TermGraph.load bytes
  checkSymbols ctx left
  checkSymbols ctx right
  pure ⟨ctx, .own left, .own right⟩

/-! ### Lists of statements -/

/-- Every `step`-th statement from number `start` on and before number `stop`. -/
def slice (ss : List Statement) (start stop step : Nat) : Checked (List Statement) := do
  require (0 < step) .sliceStep
  let count := min stop ss.length - start
  pure <| (List.range ((count + step - 1) / step)).filterMap fun k => ss[start + k * step]?

def nth (ss : List Statement) (n : Nat) : Checked Statement :=
  (Violation.indexOutOfRange n).unless ss[n]?

def linesText (ss : List Statement) : Checked String := do
  let texts ← ss.mapM text
  pure ("\n".intercalate texts)

end Statement

end Equational
