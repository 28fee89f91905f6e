import Equational.Violation

/-!
# Random numbers and shuffling

The random source is a linear congruential generator on words of 64 bits. Its low bits
are weak, so a draw takes the upper half of the state.
-/

namespace Equational

structure Lcg where
  state : UInt64 := 0
  deriving DecidableEq, Repr, Inhabited

namespace Lcg

def multiplier : UInt64 := 6364136223846793005

def increment : UInt64 := 1442695040888963407

def advance (g : Lcg) : Lcg := ⟨g.state * multiplier + increment⟩

def next32 (g : Lcg) : UInt32 × Lcg :=
  let g := g.advance
  ((g.state >>> 32).toUInt32, g)

def next64 (g : Lcg) : UInt64 × Lcg :=
  let (high, g) := g.next32
  let (low, g) := g.next32
  ((high.toUInt64 <<< 32) ||| low.toUInt64, g)

def below (g : Lcg) (bound : Nat) : Checked (Nat × Lcg) :=
  if bound = 0 then .error .emptyRange
  else
    let (n, g) := g.next64
    .ok (n.toNat % bound, g)

def many {α : Type} (draw : Lcg → α × Lcg) : Nat → Lcg → List α × Lcg
  | 0, g => ([], g)
  | n + 1, g =>
    let (first, g) := draw g
    let (rest, g) := many draw n g
    (first :: rest, g)

end Lcg

variable {m : Type → Type} [Monad m] [MonadExceptOf Violation m] {α : Type}

/-- Puts the items at the places up to number `last` in a random order: the last of them is
exchanged with a drawn one, then the same is done with those before it. A place without an item is a
violation. -/
def shuffleUpTo (draw : Nat → m Nat) : (last : Nat) → Array α → m (Array α)
  | 0, items => pure items
  | last + 1, items => do
    let i ← draw (last + 2)
    if h : last + 1 < items.size ∧ i < items.size then
      shuffleUpTo draw last (items.swap (last + 1) i h.1 h.2)
    else throw (.indexOutOfRange i)

/-- A random order of the items. The draws have to be below the bounds they are asked for. -/
def shuffle (draw : Nat → m Nat) (items : Array α) : m (Array α) :=
  shuffleUpTo draw (items.size - 1) items

end Equational
