import Equational.Source

/-!
# Supplies

A supply is a finite list that is worked out as it is read. Its first item is there; what
comes after it is found when it is asked for, and may depend on what is drawn then. A
supply also tells how much work it still holds, and how many items it has taken in and
keeps, which is of interest for a supply that is made from another one.

Supplies are built by trying the parts of a list one after the other and reading the
supply of each part to its end. When a part cannot be tried the supply is stuck: it has
not come to its end, but it has no item either, and cannot go on.

Since a supply is an inductive value, reading one to its end, filtering it, and reordering
it are recursions on the supply.
-/

namespace Equational

/-- A reading of a supply: the work it holds, the items it keeps, the items it has taken. -/
structure Gauge where
  size : Nat := 0
  kept : Nat := 0
  taken : Nat := 0
  deriving DecidableEq, Repr, Inhabited

inductive Level where
  | rule
  | rewrite
  | assignment
  deriving DecidableEq, Repr

def Level.text : Level → String
  | .rule => "rule"
  | .rewrite => "match results"
  | .assignment => "assignment"

mutual
inductive Supply (α : Type) where
  | done (gauge : Gauge)
  | item (value : α) (gauge : Gauge) (next : Source → Reply α)
  | stuck (level : Level) (gauge : Gauge)
/-- What comes after an item, or the violation met on the way to it and what it leaves. -/
inductive Reply (α : Type) where
  | rest (supply : Supply α) (source : Source)
  | broken (cause : Violation) (left : Supply α) (source : Source)
end

variable {α β : Type}

namespace Reply

def toDraws (next : Source → Reply α) : Draws (Supply α) := fun source =>
  match next source with
  | .rest supply source => (.ok supply, source)
  | .broken cause _ source => (.error cause, source)

def because (cause : Violation) : Reply α → Reply α
  | .rest supply source => .broken cause supply source
  | .broken _ left source => .broken cause left source

end Reply

namespace Supply

def head? : Supply α → Option α
  | .item value _ _ => some value
  | _ => none

def isDone : Supply α → Bool
  | .done _ => true
  | _ => false

def gauge : Supply α → Gauge
  | .done gauge | .item _ gauge _ | .stuck _ gauge => gauge

def size (s : Supply α) : Nat := s.gauge.size

def single (value : α) : Supply α :=
  .item value { size := 1 } fun source => .rest (.done {}) source

end Supply

mutual
/-- The items of a supply with their sizes changed, and then those of another one, which is
worked out when the first one is done. -/
def Supply.followedBy (resize : Nat → Nat) (others : Source → Reply α) :
    Supply α → Source → Reply α
  | .done _, source => others source
  | .item value gauge next, source =>
    .rest (.item value { gauge with size := resize gauge.size }
      fun source => (next source).followedBy resize others) source
  | .stuck level gauge, source =>
    .rest (.stuck level { gauge with size := resize gauge.size }) source
def Reply.followedBy (resize : Nat → Nat) (others : Source → Reply α) : Reply α → Reply α
  | .rest supply source => supply.followedBy resize others source
  | .broken cause left source => (left.followedBy resize others source).because cause
end

mutual
/-- The items that are not rejected. A supply that is stuck has no item to look at. -/
def Supply.reject (p : α → Bool) : Supply α → Source → Reply α
  | .done gauge, source => .rest (.done gauge) source
  | .item value gauge next, source =>
    if p value then (next source).reject p
    else .rest (.item value gauge fun source => (next source).reject p) source
  | .stuck level gauge, source =>
    .broken (.exhausted .forefront level.text) (.stuck level gauge) source
/-- The first item, which was not looked at, and those after it that are not rejected. -/
def Supply.rejectLater (p : α → Bool) : Supply α → Supply α
  | .item value gauge next => .item value gauge fun source => (next source).reject p
  | .done gauge => .done gauge
  | .stuck level gauge => .stuck level gauge
def Reply.reject (p : α → Bool) : Reply α → Reply α
  | .rest supply source => supply.reject p source
  | .broken cause left source => .broken cause (left.rejectLater p) source
end

namespace Supply

abbrev Choice := Nat → Draws Nat

def inOrder : Choice := fun _ => pure 0

def atRandom : Choice := Draws.below

def tryPart (choose : Choice) (items : β → Draws (Supply α)) (parts : List β) :
    Draws (Option (Nat × Supply α)) := do
  let i ← choose parts.length
  match parts[i]? with
  | none => pure none
  | some part => pure (some (i, ← items part))

/-- Chooses parts until none is left, and gives the items of each of them. While the items of a
part are given, their size is changed according to how many parts are left. If a part cannot be
tried then `level` is the range that stands at its end. -/
def scanWith (level : Level) (choose : Choice) (resize : Nat → Nat → Nat)
    (items : β → Draws (Supply α)) : (count : Nat) → List β → Source → Reply α
  | 0, _, source => .rest (.done {}) source
  | count + 1, parts, source =>
    match (tryPart choose items parts).runOn source with
    | (.ok none, source) => .rest (.done {}) source
    | (.ok (some (i, supply)), source) =>
      supply.followedBy (resize count)
        (scanWith level choose resize items count (parts.eraseIdx i)) source
    | (.error cause, source) => .broken cause (.stuck level { size := resize count 0 }) source

def scan (level : Level) (choose : Choice) (resize : Nat → Nat → Nat)
    (items : β → Draws (Supply α)) (parts : List β) : Draws (Supply α) :=
  Reply.toDraws (scanWith level choose resize items parts.length parts)

end Supply

end Equational
