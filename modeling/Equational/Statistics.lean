import Equational.IdMap
import Equational.Violation

/-!
# Statistics

A search counts what it does. A counter that was never touched reads zero, and is told
apart from one that was set to zero.
-/

namespace Equational

inductive Counter where
  | expansions
  | statesOpened
  | depthIncreases
  | targetsProven
  | targetsFailed
  | steps
  deriving DecidableEq, Repr

namespace Counter

def all : List Counter :=
  [.expansions, .statesOpened, .depthIncreases, .targetsProven, .targetsFailed, .steps]

def name : Counter → String
  | .expansions => "expansions"
  | .statesOpened => "states_opened"
  | .depthIncreases => "depth_increases"
  | .targetsProven => "targets_proven"
  | .targetsFailed => "targets_failed"
  | .steps => "steps"

def ofName? (name : String) : Option Counter := all.find? fun c => c.name == name

def index : Counter → Nat
  | .expansions => 0
  | .statesOpened => 1
  | .depthIncreases => 2
  | .targetsProven => 3
  | .targetsFailed => 4
  | .steps => 5

end Counter

structure Statistics where
  touched : IdMap Nat := .empty
  deriving DecidableEq

namespace Statistics

def get (s : Statistics) (c : Counter) : Nat := (s.touched.get? c.index).getD 0

def set (s : Statistics) (c : Counter) (value : Nat) : Statistics :=
  ⟨s.touched.insert c.index value⟩

def add (s : Statistics) (c : Counter) (amount : Nat) : Statistics :=
  s.set c (s.get c + amount)

def addWord (s : Statistics) (c : Counter) (amount : Nat) : Checked Statistics := do
  require (s.get c + amount < UInt64.size) .counterOverflow
  pure (s.add c amount)

def count (s : Statistics) (events : List Counter) : Statistics :=
  events.foldl (fun s c => s.add c 1) s

def merge (s other : Statistics) : Checked Statistics :=
  (Counter.all.filter fun c => other.touched.contains c.index).foldlM
    (fun s c => s.addWord c (other.get c)) s

def report (s : Statistics) : List String :=
  Counter.all.map fun c => c.name ++ " " ++ toString (s.get c)

end Statistics

end Equational
