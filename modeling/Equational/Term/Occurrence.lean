import Equational.Term

/-!
# Occurrences

An occurrence of a subterm is known by the argument positions on the way to it. The
occurrences of a term are listed root first and from left to right.
-/

namespace Equational

inductive Side where
  | lhs
  | rhs
  deriving DecidableEq, Repr

structure Occurrence where
  path : List Nat
  term : Term
  deriving DecidableEq, Repr

namespace Occurrence

def isRoot (o : Occurrence) : Bool := o.path.isEmpty

def below (i : Nat) (o : Occurrence) : Occurrence := ⟨i :: o.path, o.term⟩

end Occurrence

namespace Term

mutual
def occurrences : Term → List Occurrence
  | .var id => [⟨[], .var id⟩]
  | .const symbol => [⟨[], .const symbol⟩]
  | .app symbol args => ⟨[], .app symbol args⟩ :: occurrencesArgs 0 args
/-- The occurrences below a list of arguments of which the first is number `i`. -/
def occurrencesArgs (i : Nat) : List Term → List Occurrence
  | [] => []
  | t :: ts => t.occurrences.map (.below i) ++ occurrencesArgs (i + 1) ts
end

/-- Replaces the subterm at the end of a path. A path that leads nowhere changes nothing. -/
def replaceAt : Term → List Nat → Term → Term
  | _, [], new => new
  | .app symbol args, i :: path, new => .app symbol (args.modify i fun t => t.replaceAt path new)
  | t, _ :: _, _ => t

end Term

structure Site where
  side : Side
  occurrence : Occurrence
  deriving DecidableEq, Repr

namespace Equation

def side (e : Equation) : Side → Term
  | .lhs => e.lhs
  | .rhs => e.rhs

def sites (e : Equation) : List Site :=
  e.lhs.occurrences.map (Site.mk .lhs) ++ e.rhs.occurrences.map (Site.mk .rhs)

def replaceAt (e : Equation) (site : Site) (new : Term) : Equation :=
  match site.side with
  | .lhs => { e with lhs := e.lhs.replaceAt site.occurrence.path new }
  | .rhs => { e with rhs := e.rhs.replaceAt site.occurrence.path new }

end Equation

end Equational
