import Equational.Term

/-!
# Substitution

A substitution takes every variable to a term, and acts on a term by replacing all
variables at once. A finite map stands for the substitution that leaves every other
variable alone.
-/

namespace Equational

namespace Term

mutual
def bind (image : Nat → Term) : Term → Term
  | .var id => image id
  | .const symbol => .const symbol
  | .app symbol args => .app symbol (bindArgs image args)
def bindArgs (image : Nat → Term) : List Term → List Term
  | [] => []
  | t :: ts => t.bind image :: bindArgs image ts
end

def shift (n : Nat) : Term → Term := bind fun id => .var (id + n)

def assign (t : Term) (id : Nat) (value : Term) : Term :=
  t.bind fun i => if i = id then value else .var i

end Term

abbrev Substitution := IdMap Term

/-- The image of a variable, which is the variable itself unless it is bound. -/
def Substitution.image (s : Substitution) (id : Nat) : Term := (s.get? id).getD (.var id)

def Term.subst (s : Substitution) : Term → Term := Term.bind s.image

namespace Equation

def bind (image : Nat → Term) (e : Equation) : Equation := ⟨e.lhs.bind image, e.rhs.bind image⟩

def shift (n : Nat) (e : Equation) : Equation := ⟨e.lhs.shift n, e.rhs.shift n⟩

def assign (e : Equation) (id : Nat) (value : Term) : Equation :=
  ⟨e.lhs.assign id value, e.rhs.assign id value⟩

def subst (s : Substitution) (e : Equation) : Equation := ⟨e.lhs.subst s, e.rhs.subst s⟩

end Equation

/-!
## Matching

A pattern matches a target if some substitution turns the one into the other. It is found from left
to right, under the bindings that were made before.
-/

namespace Term

mutual
def matchInto : Term → Term → Substitution → Option Substitution
  | .var id, target, bound =>
    match bound.get? id with
    | some kept => if kept = target then some bound else none
    | none => some (bound.insert id target)
  | .const symbol, .const other, bound => if symbol = other then some bound else none
  | .app symbol args, .app other parts, bound =>
    if symbol = other then matchArgs args parts bound else none
  | _, _, _ => none
/-- Matches the arguments of two applications in order, under one set of bindings. -/
def matchArgs : List Term → List Term → Substitution → Option Substitution
  | [], [], bound => some bound
  | t :: ts, part :: parts, bound =>
    match matchInto t part bound with
    | some bound => matchArgs ts parts bound
    | none => none
  | _, _, _ => none
end

def match? (pattern target : Term) : Option Substitution := pattern.matchInto target .empty

end Term

namespace Equation

/-- One set of bindings turns both sides of the pattern into the sides of the target. -/
def matches? (pattern target : Equation) : Option Substitution :=
  match pattern.lhs.matchInto target.lhs .empty with
  | some bound => pattern.rhs.matchInto target.rhs bound
  | none => none

/-- The second equation is an instance of the first, in one of its orientations. -/
def implies (a b : Equation) : Bool :=
  (a.matches? b).isSome || (a.matches? b.transpose).isSome

end Equation

end Equational
