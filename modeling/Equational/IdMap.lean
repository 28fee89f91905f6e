/-!
# Finite maps and sets of ids

A map from ids is the list of its entries in strictly ascending order of the ids, so two
maps with the same entries are equal. A set of ids is a map to the one value of `Unit`.
-/

namespace Equational

structure IdMap (β : Type) where
  entries : List (Nat × β)
  ascending : entries.Pairwise fun a b => a.1 < b.1
  deriving DecidableEq

abbrev IdSet := IdMap Unit

namespace IdMap

variable {β γ : Type}

def empty : IdMap β := ⟨[], .nil⟩

instance : Inhabited (IdMap β) := ⟨empty⟩

def keys (m : IdMap β) : List Nat := m.entries.map Prod.fst

def values (m : IdMap β) : List β := m.entries.map Prod.snd

def size (m : IdMap β) : Nat := m.entries.length

def isEmpty (m : IdMap β) : Bool := m.entries.isEmpty

def get? (m : IdMap β) (id : Nat) : Option β := m.entries.lookup id

def contains (m : IdMap β) (id : Nat) : Bool := (m.get? id).isSome

/-- Puts an entry at its place in an ascending list, in place of an entry with the same id. -/
def insertEntry (id : Nat) (value : β) : List (Nat × β) → List (Nat × β)
  | [] => [(id, value)]
  | entry :: rest =>
    if id < entry.1 then (id, value) :: entry :: rest
    else if id = entry.1 then (id, value) :: rest
    else entry :: insertEntry id value rest

theorem mem_insertEntry {id : Nat} {value : β} {entries : List (Nat × β)} {entry : Nat × β}
    (h : entry ∈ insertEntry id value entries) : entry = (id, value) ∨ entry ∈ entries := by
  induction entries with
  | nil => simpa [insertEntry] using h
  | cons head rest ih =>
    unfold insertEntry at h
    split at h
    · simpa using h
    · split at h
      · rcases List.mem_cons.1 h with rfl | h
        · exact .inl rfl
        · exact .inr (List.mem_cons_of_mem _ h)
      · rcases List.mem_cons.1 h with rfl | h
        · exact .inr List.mem_cons_self
        · exact (ih h).imp_right (List.mem_cons_of_mem _)

theorem pairwise_insertEntry (id : Nat) (value : β) {entries : List (Nat × β)}
    (h : entries.Pairwise fun a b => a.1 < b.1) :
    (insertEntry id value entries).Pairwise fun a b => a.1 < b.1 := by
  induction entries with
  | nil => simp [insertEntry]
  | cons head rest ih =>
    obtain ⟨hhead, hrest⟩ := List.pairwise_cons.1 h
    unfold insertEntry
    split
    next hlt =>
      refine List.pairwise_cons.2 ⟨fun entry hentry => ?_, h⟩
      rcases List.mem_cons.1 hentry with rfl | hentry
      · exact hlt
      · exact Nat.lt_trans hlt (hhead entry hentry)
    next hge =>
      split
      next heq => exact List.pairwise_cons.2 ⟨fun entry hentry => heq ▸ hhead entry hentry, hrest⟩
      next hne =>
        refine List.pairwise_cons.2 ⟨fun entry hentry => ?_, ih hrest⟩
        rcases mem_insertEntry hentry with rfl | hentry
        · show head.1 < id
          omega
        · exact hhead entry hentry

def insert (m : IdMap β) (id : Nat) (value : β) : IdMap β :=
  ⟨insertEntry id value m.entries, pairwise_insertEntry id value m.ascending⟩

def erase (m : IdMap β) (id : Nat) : IdMap β :=
  ⟨m.entries.filter fun entry => entry.1 != id, m.ascending.filter _⟩

def modify (m : IdMap β) (id : Nat) (f : β → β) : IdMap β :=
  match m.get? id with
  | some value => m.insert id (f value)
  | none => m

def map (f : β → γ) (m : IdMap β) : IdMap γ :=
  ⟨m.entries.map fun entry => (entry.1, f entry.2), by
    rw [List.pairwise_map]
    exact m.ascending⟩

/-- The entries of a list, a later entry in place of an earlier one with the same id. -/
def ofList (entries : List (Nat × β)) : IdMap β :=
  entries.foldl (fun m entry => m.insert entry.1 entry.2) empty

def mapM {m : Type → Type} [Monad m] (f : β → m γ) (b : IdMap β) : m (IdMap γ) := do
  let entries ← b.entries.mapM fun entry => do pure (entry.1, ← f entry.2)
  pure (ofList entries)

end IdMap

namespace IdSet

def add (s : IdSet) (id : Nat) : IdSet := s.insert id ()

def addAll (s : IdSet) (ids : List Nat) : IdSet := ids.foldl add s

def ofIds (ids : List Nat) : IdSet := addAll IdMap.empty ids

def union (s t : IdSet) : IdSet := s.addAll t.keys

def least? (s : IdSet) : Option Nat := s.keys.head?

def greatest? (s : IdSet) : Option Nat := s.keys.getLast?

end IdSet

end Equational
