import Equational.Line
import Equational.Random

/-!
# What a search draws on

While successors are enumerated and ranked, the rules are looked up, random numbers are
drawn, recorded values are played back, the time is taken, and the states that are found
are numbered. All but the rules are used up in the order in which they are asked for, so
they are passed along from step to step. What was drawn stays drawn when a step fails.

A step that changes a value in place may fail half way. Then the value stays as it was
when the step failed.
-/

namespace Equational

/-- The rules in use, the random source, for each tape of recorded values how many of them were
played, the next number to be handed out, and the times that will be taken. -/
structure Source where
  rules : List Rule := []
  rng : Lcg := {}
  played : IdMap Nat := .empty
  next : Nat := 0
  /-- The seconds that pass while each of the items to come is found. None pass for those after
  them. -/
  times : List Float32 := []
  deriving DecidableEq, Inhabited

def Source.takeTime (s : Source) : Float32 × Source :=
  match s.times with
  | [] => (0, s)
  | seconds :: times => (seconds, { s with times })

abbrev Draws := ExceptT Violation (StateM Source)

namespace Draws

def rules : Draws (List Rule) := do pure (← get).rules

def below (bound : Nat) : Draws Nat := do
  let source ← get
  match source.rng.below bound with
  | .ok (n, rng) =>
    set { source with rng }
    pure n
  | .error cause => throw cause

/-- The next value of a tape, which starts again after its last one. A tape without values has
none to give. -/
def play (tape : Nat) (values : Array Float32) : Draws Float32 := fun source =>
  let n := (source.played.get? tape).getD 0
  match values[n % values.size]? with
  | some value => (.ok value, { source with played := source.played.insert tape (n + 1) })
  | none => (.error .emptyTape, source)

def numbered {α : Type} (m : Numbering α) : Draws α := do
  let source ← get
  let (a, next) := m.run source.next
  set { source with next }
  pure a

def runOn {α : Type} (m : Draws α) (source : Source) : Checked α × Source :=
  m.run.run source

end Draws

/-- A computation that draws on a source and changes a value in place. What was changed before a
violation stays changed. -/
abbrev Changes (σ : Type) := ExceptT Violation (StateT σ (StateM Source))

namespace Changes

variable {σ τ α : Type}

def runOn (m : Changes σ α) (s : σ) : StateM Source (Checked α × σ) := m.run.run s

def draw (m : Draws α) : Changes σ α := ExceptT.mk (liftM (m.run : StateM Source (Checked α)))

/-- Changes another value, and gives it back together with the result or the violation. -/
def attempt (m : Changes τ α) (t : τ) : Changes σ (Checked α × τ) :=
  ExceptT.lift (liftM (m.runOn t))

end Changes

end Equational
