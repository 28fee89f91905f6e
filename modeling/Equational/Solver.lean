import Equational.Plan
import Equational.Statistics

/-!
# Search by iterative deepening

A solver looks for proofs of a number of targets. For each target it goes depth first
through the states within a depth limit. When all of them were seen and some were left
out because of the limit, the limit is raised by one, up to a maximum, and the search
starts again from the target.
-/

namespace Equational

structure Frame where
  state : ProofState
  cursor : Cursor

/-- The search for a proof of one target. The innermost frame comes first. -/
structure Search where
  root : ProofState
  limit : Nat
  stack : List Frame := []
  cutOff : Bool := false
  verdict : Verdict := .unfinished
  proof : Option ProofState := none
  expansions : Nat := 1

namespace Search

def isDone (x : Search) : Bool := x.verdict != .unfinished

def depth (x : Search) : Nat := (x.stack.head?).elim 0 fun frame => frame.state.depth

def prove (x : Search) (s : ProofState) : Search :=
  { x with verdict := .proven, proof := some s, stack := [] }

def fail (x : Search) : Search := { x with verdict := .noProof }

end Search

structure Guidance where
  kernel : Kernel
  plan : Plan
  maxDepth : Nat

structure Task where
  search : Search
  stats : Statistics

namespace Task

def count (c : Counter) : Changes Task Unit :=
  modify fun t => { t with stats := t.stats.add c 1 }

def update (f : Search → Search) : Changes Task Unit :=
  modify fun t => { t with search := f t.search }

def isTrivial (e : Equation) : Changes Task Bool := do
  pure (e.isTrivialIn (← Changes.draw Draws.rules))

def enter (g : Guidance) (s : ProofState) : Changes Task Unit := do
  count .statesOpened
  let cursor ← Changes.draw (g.plan.successors g.kernel s)
  update fun x => { x with stack := ⟨s, cursor⟩ :: x.stack }

/-- Ends the search if the state is a proof, and otherwise does something else. -/
def proveOr (s : ProofState) (otherwise : Changes Task Unit) : Changes Task Unit := do
  if ← isTrivial s.forefront then
    count .targetsProven
    update fun x => x.prove s
  else otherwise

def start (g : Guidance) : Changes Task Unit := do
  let root := (← get).search.root
  proveOr root (enter g root)

def finishPass (g : Guidance) : Changes Task Unit := do
  let x := (← get).search
  if x.cutOff && x.limit < g.maxDepth then
    update fun x => { x with limit := x.limit + 1, cutOff := false }
    count .depthIncreases
    enter g x.root
  else
    update Search.fail
    count .targetsFailed

/-- The state that the cursor of the innermost frame stands on. The cursor moves on. -/
def takeChild (frame : Frame) (outer : List Frame) : Changes Task ProofState := do
  let child ← frame.cursor.get
  let (outcome, cursor) ← Changes.attempt Cursor.advance frame.cursor
  update fun x => { x with stack := { frame with cursor } :: outer }
  let _ ← outcome
  pure child

def expand (g : Guidance) (child : ProofState) : Changes Task Unit := do
  count .expansions
  update fun x => { x with expansions := x.expansions + 1 }
  proveOr child do
    if child.depth < (← get).search.limit then enter g child
    else update fun x => { x with cutOff := true }

def step (g : Guidance) : Changes Task Unit := do
  match (← get).search.stack with
  | [] => finishPass g
  | frame :: outer =>
    if frame.cursor.isValid then expand g (← takeChild frame outer)
    else update fun x => { x with stack := outer }

def steps (g : Guidance) : (count : Nat) → Changes Task Unit
  | 0 => pure ()
  | count + 1 => do
    if (← get).search.isDone then pure ()
    else
      step g
      steps g count

end Task

structure Solver where
  plan : Plan
  maxDepth : Nat := 10
  startingDepth : Nat := 3
  targets : Option (List Statement) := none
  searches : List Search := []
  stats : Statistics := {}

namespace Solver

def make (plan : Plan) (maxDepth startingDepth : Nat) : Checked Solver := do
  require (1 ≤ startingDepth) .startingDepth
  require (startingDepth < maxDepth) .maxDepth
  pure { plan, maxDepth, startingDepth }

def guidance (s : Solver) (k : Kernel) : Guidance := ⟨k, s.plan, s.maxDepth⟩

def clear (s : Solver) : Solver := { s with targets := none, searches := [] }

def begin (k : Kernel) (target : Statement) : Changes Solver Unit := do
  let root ← Changes.draw (k.prove target)
  let s ← get
  let (outcome, task) ← Changes.attempt (Task.start (s.guidance k))
    ⟨{ root, limit := s.startingDepth }, s.stats⟩
  set { s with stats := task.stats }
  let _ ← outcome
  modify fun s => { s with searches := s.searches ++ [task.search] }

/-- Replaces the targets. If a search cannot be started the solver has the targets, and the
searches that could be started before it. -/
def setTargets (k : Kernel) (targets : List Statement) : Changes Solver Unit := do
  require (!targets.isEmpty) .noTargets
  modify fun s => { s.clear with targets := some targets }
  targets.forM (begin k)

def isEngaged (s : Solver) : Bool := !s.searches.isEmpty

def isDone (s : Solver) : Bool := s.searches.all Search.isDone

/-- Lets each search in turn make the given number of moves, until one cannot. -/
def stepAll (g : Guidance) (count : Nat) : List Search → Statistics →
    StateM Source (Checked Unit × List Search × Statistics)
  | [], stats => pure (.ok (), [], stats)
  | x :: xs, stats => do
    match ← (Task.steps g count).runOn ⟨x, stats⟩ with
    | (.error cause, task) => pure (.error cause, task.search :: xs, task.stats)
    | (.ok (), task) =>
      let (outcome, xs, stats) ← stepAll g count xs task.stats
      pure (outcome, task.search :: xs, stats)

def step (k : Kernel) (count : Nat) : Changes Solver Unit := do
  let s ← get
  require s.isEngaged .stepWithoutTargets
  require (0 < count) .stepCount
  let (outcome, searches, stats) ←
    liftM (stepAll (s.guidance k) count s.searches (s.stats.add .steps 1))
  set { s with searches, stats }
  outcome

def run (k : Kernel) (size : Nat) : (steps : Nat) → Changes Solver Unit
  | 0 => pure ()
  | steps + 1 => do
    if (← get).isDone then pure ()
    else
      step k size
      run k size steps

def verdicts (s : Solver) : List Verdict := s.searches.map Search.verdict

def proofs (s : Solver) : List (Option ProofState) := s.searches.map Search.proof

def limits (s : Solver) : List Nat := s.searches.map Search.limit

def expansions (s : Solver) : List Nat := s.searches.map Search.expansions

def depths (s : Solver) : List Nat := s.searches.map Search.depth

end Solver

end Equational
