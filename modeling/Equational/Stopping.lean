import Equational.Stopping.Normal
import Equational.Violation

/-!
# Stopping strategies

A stopping strategy is told the benefit and the cost of each candidate that is taken in,
and says when enough were taken in to hand out the best one. A strategy that has stopped
takes no more until the best one was handed out.

Benefits are floats. They are ordered as numbers, with negative zero before zero, and what
is not a number comes before everything else.
-/

namespace Equational

namespace Benefit

def rank (b : Float32) : Int :=
  if b.isNaN then -0x100000000
  else
    let bits := b.toBits.toNat
    if bits < 0x80000000 then bits else -((bits - 0x80000000 : Nat) : Int) - 1

variable {α : Type}

/-- Puts an item behind all that are at least as good, in a list with the best one first. -/
def insert (benefit : α → Float32) (new : α) : List α → List α
  | [] => [new]
  | old :: rest =>
    if rank (benefit old) < rank (benefit new) then new :: old :: rest
    else old :: insert benefit new rest

end Benefit

structure FixedStrategy where
  size : Nat
  current : Nat := 0
  deriving DecidableEq, Repr

namespace FixedStrategy

def make (size : Nat) : Checked FixedStrategy := do
  require (1 ≤ size) .fixedSize
  pure { size }

def isStopped (s : FixedStrategy) : Bool := s.current == s.size

def add (s : FixedStrategy) : Checked FixedStrategy := do
  require (!s.isStopped) .addWhileStopped
  pure { s with current := s.current + 1 }

def removeBest (s : FixedStrategy) : Checked FixedStrategy := do
  require s.isStopped .removeWhileRunning
  pure { s with current := s.current - 1 }

end FixedStrategy

/-- Takes the benefits and the logarithms of the costs for independent normal values, and stops
when a further candidate is likely enough to be worth less than the best one at hand. Nothing
is decided before the first candidates were seen. -/
structure BasicStrategy where
  lambda : Float
  alpha : Float
  fillLeft : Nat
  benefits : List Float32 := []
  count : Nat := 0
  sumBenefit : Float := 0
  sumSquaredBenefit : Float := 0
  sumLogCost : Float := 0
  sumSquaredLogCost : Float := 0
  stopped : Bool := false
  erfc : Float → Float := Normal.erfc

namespace BasicStrategy

def make (fill : Nat) (lambda alpha : Float32) : Checked BasicStrategy := do
  require (1 < fill) .initialFill
  require (lambda > 0) .lambda
  require (alpha > 0 && alpha < 1) .alpha
  pure { lambda := lambda.toFloat, alpha := alpha.toFloat, fillLeft := fill }

def variance (sumSquares n mean : Float) : Float :=
  let v := sumSquares / n - mean * mean
  if v > 0 then v else 0

/-- Whether a further candidate exceeds the threshold with a probability above `alpha`. -/
def decides (s : BasicStrategy) (best : Float32) : Bool :=
  let n := s.count.toFloat
  let meanBenefit := s.sumBenefit / n
  let meanLogCost := s.sumLogCost / n
  let mean := s.lambda * meanBenefit - meanLogCost
  let deviation := (s.lambda * s.lambda * variance s.sumSquaredBenefit n meanBenefit +
    variance s.sumSquaredLogCost n meanLogCost).sqrt
  let threshold := s.lambda * best.toFloat + s.sumLogCost
  Normal.exceeds s.erfc mean deviation threshold > s.alpha

def update (s : BasicStrategy) : BasicStrategy :=
  { s with
    stopped :=
      match s.benefits with
      | [] => false
      | best :: _ => s.fillLeft == 0 && s.decides best }

def add (s : BasicStrategy) (benefit cost : Float32) : Checked BasicStrategy := do
  require (!s.stopped) .addWhileStopped
  require (cost > 0) .cost
  let b := benefit.toFloat
  let lc := cost.toFloat.log
  pure <| update
    { s with
      benefits := Benefit.insert id benefit s.benefits
      sumBenefit := s.sumBenefit + b
      sumSquaredBenefit := s.sumSquaredBenefit + b * b
      sumLogCost := s.sumLogCost + lc
      sumSquaredLogCost := s.sumSquaredLogCost + lc * lc
      count := s.count + 1
      fillLeft := s.fillLeft - 1 }

def removeBest (s : BasicStrategy) : Checked BasicStrategy := do
  require s.stopped .removeWhileRunning
  pure (update { s with benefits := s.benefits.tail })

end BasicStrategy

/-- A strategy. A rehearsed one is told its costs from a list that starts again at its end,
whatever was measured. -/
inductive Strategy where
  | fixed (s : FixedStrategy)
  | basic (s : BasicStrategy)
  | rehearsed (costs : Array Float32) (told : Nat) (s : Strategy)

namespace Strategy

def isStopped : Strategy → Bool
  | .fixed s => s.isStopped
  | .basic s => s.stopped
  | .rehearsed _ _ s => s.isStopped

/-- A candidate was taken in. A recorded cost is used up also if the candidate is refused, and
where no costs are recorded every candidate is refused. -/
def add (benefit cost : Float32) : Strategy → Checked Unit × Strategy
  | .fixed s =>
    match s.add with
    | .ok s => (.ok (), .fixed s)
    | .error cause => (.error cause, .fixed s)
  | .basic s =>
    match s.add benefit cost with
    | .ok s => (.ok (), .basic s)
    | .error cause => (.error cause, .basic s)
  | .rehearsed costs told s =>
    match costs[told % costs.size]? with
    | some cost =>
      let (outcome, s) := s.add benefit cost
      (outcome, .rehearsed costs (told + 1) s)
    | none => (.error .emptyTape, .rehearsed costs told s)

def removeBest : Strategy → Checked Strategy
  | .fixed s => do pure (.fixed (← s.removeBest))
  | .basic s => do pure (.basic (← s.removeBest))
  | .rehearsed costs told s => do pure (.rehearsed costs told (← s.removeBest))

end Strategy

inductive Stopping where
  | fixed (size : Nat)
  | basic (fill : Nat) (lambda alpha : Float32)
  deriving BEq, Repr

namespace Stopping

def start : Stopping → Checked Strategy
  | .fixed size => do pure (.fixed (← FixedStrategy.make size))
  | .basic fill lambda alpha => do pure (.basic (← BasicStrategy.make fill lambda alpha))

end Stopping

end Equational
