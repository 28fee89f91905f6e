import Equational.Context

/-!
# Violations

An operation whose precondition does not hold gives no value. The cause is a violation,
and its wording is kept in one place. Some causes have no wording of their own. All assertions
are on, and so are the checks that words do not overflow and that a row is not too long.
-/

namespace Equational

inductive Request where
  | get
  | forefront
  | advance
  deriving DecidableEq, Repr

def Request.text : Request → String
  | .get => "get()"
  | .forefront => "get_forefront()"
  | .advance => "advance()"

inductive Violation where
  -- records
  | functionLeaf
  | rootOutOfRange (index : Nat)
  | recordWithoutArguments
  | columnsDiffer
  | childNotStored (index : Nat)
  | recordOutOfRange (index : Nat)
  | argumentOutOfRange (slot arity : Nat)
  -- expressions and statements
  | unknownSymbol (id : Nat)
  | notConstant (name : String)
  | argumentCount (name : String)
  | innerEquality
  | noEquality
  | notAnExtension (larger smaller : String)
  | replacementNotConstant
  | contextsDiffer
  | sliceStep
  | indexOutOfRange (index : Nat)
  | rowTooLong
  -- walks through records
  | stackUnderflow
  | noResult (walk : String)
  | scoreMissing
  | endless
  -- kernels
  | axiomsIllTyped
  | theoremsIllTyped
  | symbolDefined (name : String)
  | symbolRefused (name : String) (reason : DefinitionError)
  | emptyBatch
  | batchNotLive (handle : Nat)
  | foreignTarget
  | emptyRange
  -- cursors
  | exhausted (request : Request) (cursor : String)
  -- heuristics and stopping strategies
  | mismatchCost
  | distanceExponent
  | fixedSize
  | initialFill
  | lambda
  | alpha
  | basicParameters
  | addWhileStopped
  | removeWhileRunning
  | cost
  | emptyTape
  -- search
  | startingDepth
  | maxDepth
  | noTargets
  | stepWithoutTargets
  | stepCount
  | counterOverflow
  deriving DecidableEq, Repr

def Violation.message : Violation → Option String
  | .functionLeaf => "a leaf cannot be a function node"
  | .rootOutOfRange index => s!"function root {index} out of range"
  | .recordWithoutArguments => "function records need at least one child"
  | .columnsDiffer => "child id/type arrays differ in length"
  | .childNotStored index => s!"function child {index} not merged"
  | .recordOutOfRange index => s!"function index {index} out of range"
  | .argumentOutOfRange slot arity => s!"argument {slot} out of range for arity {arity}"
  | .unknownSymbol _ => none
  | .notConstant name => s!"`{name}` is not a constant"
  | .argumentCount name => s!"wrong number of arguments for `{name}`"
  | .innerEquality => "equality nodes only appear at the top of a statement"
  | .noEquality => "a statement must be rooted at an equality"
  | .notAnExtension larger smaller => s!"{larger} does not extend {smaller}"
  | .replacementNotConstant => "replacement must be a constant"
  | .contextsDiffer => "both sides of a statement must share one model context"
  | .sliceStep => "slice step must be positive"
  | .indexOutOfRange _ => none
  | .rowTooLong => none
  | .stackUnderflow => none
  | .noResult walk => s!"{walk} produces one result"
  | .scoreMissing => none
  | .endless => none
  | .axiomsIllTyped => "axioms must type check against the context"
  | .theoremsIllTyped => "theorems must type check against the kernel"
  | .symbolDefined name => s!"symbol `{name}` is already defined"
  | .symbolRefused name reason =>
    let reason := reason.message
    s!"symbol `{name}` could not be registered: {reason}"
  | .emptyBatch => "cannot add an empty theorem batch"
  | .batchNotLive handle => s!"theorem batch {handle} is not live"
  | .foreignTarget => "target statement belongs to another model context"
  | .emptyRange => "cannot draw from an empty range"
  | .exhausted request cursor =>
    let request := request.text
    s!"{request} on an exhausted {cursor} iterator"
  | .mismatchCost => "symbol mismatch cost must be positive"
  | .distanceExponent => "edit distance exponent must be positive"
  | .fixedSize => "fixed stopping strategy needs a positive size"
  | .initialFill => "initial fill must exceed one"
  | .lambda => "lambda must be positive"
  | .alpha => "alpha must lie in (0, 1)"
  | .basicParameters => none
  | .addWhileStopped => "add() on a stopped strategy"
  | .removeWhileRunning => "max_removed() on a running strategy"
  | .cost => "costs must be positive"
  | .emptyTape => none
  | .startingDepth => "starting depth must be positive"
  | .maxDepth => "max depth must exceed the starting depth"
  | .noTargets => "a solver needs at least one target"
  | .stepWithoutTargets => "step() without targets"
  | .stepCount => "step() needs a positive count"
  | .counterOverflow => none

abbrev Checked := Except Violation

def require (condition : Bool) (cause : Violation) : Checked Unit :=
  if condition then .ok () else .error cause

def Violation.unless {α : Type} (cause : Violation) : Option α → Checked α
  | some value => .ok value
  | none => .error cause

/-!
## Agendas

An agenda is a stack of tasks. The uppermost task is done first, and the tasks that it asks for go
on top of the stack, in front of everything that was there before. So a recursion can be worked off
without being nested: a task that has to wait for others puts itself on the agenda again, below
them. The values that tasks find are kept on a second stack, from which the tasks that waited for
them take them.
-/

/-- Does tasks from the top of an agenda, `count` of them at most, and gives what is left of the
agenda. Each task changes the state and tells which tasks it asks for, the next one first. -/
def workOff {m : Type → Type} [Monad m] {τ σ : Type} (work : τ → σ → m (List τ × σ)) :
    (count : Nat) → List τ → σ → m (List τ × σ)
  | 0, agenda, state => pure (agenda, state)
  | _ + 1, [], state => pure ([], state)
  | count + 1, task :: agenda, state => do
    let (more, state) ← work task state
    workOff work count (more ++ agenda) state

variable {α : Type}

/-- Takes the values of `arity` arguments from the top of a stack and gives them in order, together
with the values below them. -/
def takeArgs (arity : Nat) (values : List α) : Checked (List α × List α) :=
  if values.length < arity then .error .stackUnderflow
  else .ok ((values.take arity).reverse, values.drop arity)

def lastValue {τ : Type} (walk : String) (agenda : List τ) (values : List α) : Checked α :=
  if agenda.isEmpty then (Violation.noResult walk).unless values.head?
  else .error .endless

end Equational
