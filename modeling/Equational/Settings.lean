import Equational.Solver

/-!
# Search settings

What a run is told: how long to search, how to enumerate successors, and optionally the
depths, the heuristic and the stopping strategy. Settings are checked in a fixed order and
the first fault is reported.
-/

namespace Equational

/-- A seed, or a word for where to take it from. The one word known is `time`. -/
inductive SeedChoice where
  | value (seed : UInt64)
  | word (text : String)
  deriving BEq, DecidableEq, Repr

structure Depths where
  max : Nat := 10
  starting : Nat := 3
  deriving BEq, DecidableEq, Repr

structure Settings where
  name : String := "Unnamed Search Settings"
  desc : String := "No description."
  maxSteps : Nat := 10
  stepSize : Nat := 100
  seed : SeedChoice := .word "time"
  randomised : Bool := false
  noRepeats : Bool := false
  depths : Option Depths := none
  heuristic : Option EditDistance := none
  stopping : Option Stopping := none
  deriving BEq

inductive StoppingFault where
  | size
  | initialFill
  | lambda
  | alpha
  deriving DecidableEq, Repr

def StoppingFault.message : StoppingFault → String
  | .size => "fixed size must be positive"
  | .initialFill => "initial_fill must exceed one"
  | .lambda => "lambda must be positive"
  | .alpha => "alpha must lie in (0, 1)"

inductive SettingsFault where
  | seed (word : String)
  | zeroSteps
  | depths (max starting : Nat)
  | heuristic
  | strategyWithoutHeuristic
  | stopping (fault : StoppingFault)
  deriving DecidableEq, Repr

def SettingsFault.message : SettingsFault → String
  | .seed word => s!"seed must be a number or \"time\", got \"{word}\""
  | .zeroSteps => "step_size and max_steps must be positive"
  | .depths max starting =>
    s!"solver needs 1 <= starting_depth < max_depth, got {starting} and {max}"
  | .heuristic => "edit distance needs positive symbol_mismatch_cost and p"
  | .strategyWithoutHeuristic => "a stopping strategy needs a heuristic"
  | .stopping fault => "invalid stopping strategy: " ++ fault.message

namespace Stopping

def fault? : Stopping → Option StoppingFault
  | .fixed size => if size = 0 then some .size else none
  | .basic fill lambda alpha =>
    if fill ≤ 1 then some .initialFill
    else if !(lambda > 0) then some .lambda
    else if !(alpha > 0 && alpha < 1) then some .alpha
    else none

end Stopping

namespace Settings

def seedFault? (s : Settings) : Option SettingsFault :=
  match s.seed with
  | .value _ => none
  | .word text => if text = "time" then none else some (.seed text)

def stepsFault? (s : Settings) : Option SettingsFault :=
  if s.maxSteps = 0 || s.stepSize = 0 then some .zeroSteps else none

def depthsFault? (s : Settings) : Option SettingsFault :=
  match s.depths with
  | none => none
  | some d => if d.starting < 1 || d.max ≤ d.starting then some (.depths d.max d.starting) else none

def heuristicFault? (s : Settings) : Option SettingsFault :=
  match s.heuristic with
  | none => none
  | some h => if h.mismatch > 0 && h.power > 0 then none else some .heuristic

def stoppingFault? (s : Settings) : Option SettingsFault :=
  match s.stopping with
  | none => none
  | some stopping =>
    if s.heuristic.isNone then some .strategyWithoutHeuristic
    else stopping.fault?.map .stopping

def fault? (s : Settings) : Option SettingsFault :=
  s.seedFault? <|> s.stepsFault? <|> s.depthsFault? <|> s.heuristicFault? <|> s.stoppingFault?

def resolvedSeed (s : Settings) (clock : UInt64) : UInt64 :=
  match s.seed with
  | .value seed => seed
  | .word _ => clock

def kernelOptions (s : Settings) (clock : UInt64) : KernelOptions :=
  { randomised := s.randomised, noRepeats := s.noRepeats, seed := s.resolvedSeed clock }

def makeHeuristic (s : Settings) : Checked (Option Heuristic) :=
  match s.heuristic with
  | none => pure none
  | some h => do
    let h ← EditDistance.make h.mismatch h.power
    pure (some h.heuristic)

def makePlan (s : Settings) : Checked Plan := do
  let heuristic ← s.makeHeuristic
  let p : Plan := { heuristic }
  match s.stopping with
  | none => pure p
  | some (.fixed size) => p.setFixed size
  | some (.basic fill lambda alpha) => p.setBasic fill lambda alpha

/-- Makes the solver that is asked for. Nothing relies on the settings having been looked through
for faults: every part checks what it is made with. -/
def makeSolver (s : Settings) : Checked Solver := do
  let d := s.depths.getD {}
  let p ← s.makePlan
  Solver.make p d.max d.starting

end Settings

end Equational
