import Equational.IdMap
import Equational.Text
import Equational.Violation

/-!
# Dense maps and sets of ids

A dense map keeps its entries in a row of slots, one for each id from `offset` on. An id below
the row makes it grow at the front, just as far as that id; an id above the row makes it twice as
long, or longer if that is not enough. Slots that are given up stay in the row, and the entries
are counted apart.

The slot of an id is found by arithmetic on words, which is checked: a difference below zero, a slot
outside of the row and a row that is too long are violations. So two ids that are far apart do not
fit into one row.
-/

namespace Equational

/-- Entries in a row of slots, of which the first belongs to the id `offset`. -/
structure DenseMap (β : Type) where
  offset : Nat := 0
  slots : Array (Option β) := #[]
  count : Nat := 0
  deriving Repr, Inhabited

abbrev DenseSet := DenseMap Unit

namespace DenseMap

variable {β : Type}

def empty : DenseMap β := {}

def lookup (m : DenseMap β) (id : Nat) : Option β :=
  if m.offset ≤ id then m.slots[id - m.offset]?.join else none

def slot? (m : DenseMap β) (id : Nat) : Option Nat :=
  if id < m.offset then none
  else if id - m.offset < m.slots.size then some (id - m.offset)
  else none

/-- The most slots that a row can have. A slot takes up to 128 bytes, and no block of memory has
more bytes than half of what a word can count. -/
def limit : Nat := 0x100000000000000

def sizeFor (m : DenseMap β) (id : Nat) : Nat :=
  if m.slots.isEmpty then 1
  else if id < m.offset then m.offset - id + m.slots.size
  else if m.slots.size ≤ id - m.offset then max (id - m.offset + 1) (m.slots.size * 2)
  else m.slots.size

def extend (m : DenseMap β) (id : Nat) : DenseMap β :=
  if m.slots.isEmpty then { m with offset := id, slots := #[none] }
  else if id < m.offset then
    { m with offset := id, slots := Array.replicate (m.offset - id) none ++ m.slots }
  else { m with slots := m.slots ++ Array.replicate (m.sizeFor id - m.slots.size) none }

def reserve (m : DenseMap β) (id : Nat) : Checked (DenseMap β) := do
  require (m.sizeFor id ≤ limit) .rowTooLong
  pure (m.extend id)

def place (m : DenseMap β) (id : Nat) : Checked Nat := do
  require (m.offset ≤ id) .counterOverflow
  pure (id - m.offset)

def read (m : DenseMap β) (slot : Nat) : Checked (Option β) :=
  (Violation.indexOutOfRange slot).unless m.slots[slot]?

def write (m : DenseMap β) (slot : Nat) (value : Option β) : Checked (DenseMap β) := do
  require (slot < m.slots.size) (.indexOutOfRange slot)
  pure { m with slots := m.slots.setIfInBounds slot value }

def insert (m : DenseMap β) (id : Nat) (value : β) : Checked (Option β × DenseMap β) := do
  let m ← m.reserve id
  let slot ← m.place id
  let old ← m.read slot
  let m ← m.write slot (some value)
  pure (old, { m with count := if old.isNone then m.count + 1 else m.count })

def get? (m : DenseMap β) (id : Nat) : Checked (Option β) :=
  match m.slot? id with
  | some slot => m.read slot
  | none => pure none

def modify (m : DenseMap β) (id : Nat) (f : β → β) : Checked (Bool × DenseMap β) :=
  match m.slot? id with
  | some slot => do
    match ← m.read slot with
    | some value => pure (true, ← m.write slot (some (f value)))
    | none => pure (false, m)
  | none => pure (false, m)

def remove (m : DenseMap β) (id : Nat) : Checked (Option β × DenseMap β) :=
  match m.slot? id with
  | some slot => do
    let old ← m.read slot
    let m ← m.write slot none
    if old.isNone then pure (old, m)
    else
      require (0 < m.count) .counterOverflow
      pure (old, { m with count := m.count - 1 })
  | none => pure (none, m)

def clear (_ : DenseMap β) : DenseMap β := empty

def entriesFrom (first : Nat) : List (Option β) → List (Nat × β)
  | [] => []
  | none :: slots => entriesFrom (first + 1) slots
  | some value :: slots => (first, value) :: entriesFrom (first + 1) slots

def entries (m : DenseMap β) : List (Nat × β) := entriesFrom m.offset m.slots.toList

def keys (m : DenseMap β) : List Nat := m.entries.map Prod.fst

def isEmpty (m : DenseMap β) : Bool := m.count == 0

end DenseMap

namespace DenseSet

def add (s : DenseSet) (id : Nat) : Checked (Bool × DenseSet) := do
  let (old, s) ← s.insert id ()
  pure (old.isNone, s)

def remove (s : DenseSet) (id : Nat) : Checked (Bool × DenseSet) := do
  let (old, s) ← DenseMap.remove s id
  pure (old.isSome, s)

def contains (s : DenseSet) (id : Nat) : Checked Bool := do
  pure (← s.get? id).isSome

def addAll (s : DenseSet) (ids : List Nat) : Checked DenseSet :=
  ids.foldlM (fun s id => do pure (← s.add id).2) s

def ofIds (ids : List Nat) : Checked DenseSet := addAll .empty ids

def union (s t : DenseSet) : Checked DenseSet := s.addAll t.keys

def least? (s : DenseSet) : Option Nat := s.keys.head?

def greatest? (s : DenseSet) : Option Nat := s.keys.getLast?

/-- Two sets are compared by the numbers of their members, and then by the members. -/
def same (s t : DenseSet) : Bool := s.count == t.count && s.keys == t.keys

end DenseSet

def DenseMap.summary (m : DenseMap String) : String :=
  Text.braced (m.entries.map fun (id, text) => toString id ++ ": " ++ Text.quoted text)

def DenseSet.summary (s : DenseSet) : String := Text.braced (s.keys.map toString)

end Equational
