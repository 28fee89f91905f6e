import Equational.Term

/-!
# Renaming

Two terms are equivalent if a one-to-one renaming of variables turns one into the other.
The renaming is found from left to right and kept in both directions, so that it can be
continued from one pair of terms to the next.
-/

namespace Equational

structure Renaming where
  forward : IdMap Nat := .empty
  backward : IdMap Nat := .empty
  deriving DecidableEq

namespace Renaming

/-- Sends one variable to another: a new pair is added, a known pair is confirmed. -/
def send (r : Renaming) (a b : Nat) : Option Renaming :=
  match r.forward.get? a, r.backward.get? b with
  | none, none => some ⟨r.forward.insert a b, r.backward.insert b a⟩
  | some image, some origin => if image = b ∧ origin = a then some r else none
  | _, _ => none

end Renaming

namespace Term

mutual
def renameInto : Term → Term → Renaming → Option Renaming
  | .var a, .var b, r => r.send a b
  | .const a, .const b, r => if a = b then some r else none
  | .app f as, .app g bs, r => if f = g then renameArgs as bs r else none
  | _, _, _ => none
def renameArgs : List Term → List Term → Renaming → Option Renaming
  | [], [], r => some r
  | a :: as, b :: bs, r =>
    match renameInto a b r with
    | some r => renameArgs as bs r
    | none => none
  | _, _, _ => none
end

def equivalent (a b : Term) : Bool := (a.renameInto b {}).isSome

end Term

namespace Equation

/-- One renaming takes the sides of the first equation to those of the second. -/
def renames (a b : Equation) : Option Renaming :=
  match a.lhs.renameInto b.lhs {} with
  | some r => a.rhs.renameInto b.rhs r
  | none => none

def equivalent (a b : Equation) : Bool :=
  (a.renames b).isSome || (a.renames b.transpose).isSome

end Equation

end Equational
