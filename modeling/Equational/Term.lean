import Equational.IdMap
import Equational.Violation

/-!
# Terms and equations

A term is a free variable, a constant, or a function symbol applied to terms. Variables
and symbols are known by their ids. An equation is a pair of terms.
-/

namespace Equational

inductive Term where
  | var (id : Nat)
  | const (symbol : Nat)
  | app (symbol : Nat) (args : List Term)
  deriving Inhabited, Repr

structure Equation where
  lhs : Term
  rhs : Term
  deriving Inhabited, Repr

namespace Term

mutual
def decEq : (a b : Term) → Decidable (a = b)
  | .var i, .var j =>
    if h : i = j then isTrue (h ▸ rfl) else isFalse fun e => h (Term.var.inj e)
  | .const c, .const d =>
    if h : c = d then isTrue (h ▸ rfl) else isFalse fun e => h (Term.const.inj e)
  | .app f as, .app g bs =>
    if h : f = g then
      match decEqList as bs with
      | isTrue hargs => isTrue (h ▸ hargs ▸ rfl)
      | isFalse hargs => isFalse fun e => hargs (Term.app.inj e).2
    else isFalse fun e => h (Term.app.inj e).1
  | .var _, .const _ | .var _, .app _ _ | .const _, .var _ | .const _, .app _ _
  | .app _ _, .var _ | .app _ _, .const _ => isFalse nofun
def decEqList : (as bs : List Term) → Decidable (as = bs)
  | [], [] => isTrue rfl
  | a :: as, b :: bs =>
    match decEq a b with
    | isTrue h =>
      match decEqList as bs with
      | isTrue hs => isTrue (h ▸ hs ▸ rfl)
      | isFalse hs => isFalse fun e => hs (List.cons.inj e).2
    | isFalse h => isFalse fun e => h (List.cons.inj e).1
  | [], _ :: _ | _ :: _, [] => isFalse nofun
end

instance : DecidableEq Term := decEq

mutual
def vars : Term → List Nat
  | .var id => [id]
  | .const _ => []
  | .app _ args => varsArgs args
def varsArgs : List Term → List Nat
  | [] => []
  | t :: ts => t.vars ++ varsArgs ts
end

def freeIds (t : Term) : IdSet := IdSet.ofIds t.vars

end Term

deriving instance DecidableEq for Equation

namespace Equation

def transpose (e : Equation) : Equation := ⟨e.rhs, e.lhs⟩

def vars (e : Equation) : List Nat := e.lhs.vars ++ e.rhs.vars

def isReflexive (e : Equation) : Bool := e.lhs == e.rhs

end Equation

/-!
## Texts

A variable is printed as `x` and its id, a symbol by its name in the signature. A symbol
that the signature does not have cannot be printed.
-/

def Signature.symbol (s : Signature) (id : Nat) : Checked Symbol :=
  (Violation.unknownSymbol id).unless (s.get? id)

namespace Context

def nameOf (ctx : Context) (symbol : Nat) : Checked String :=
  (Violation.unknownSymbol symbol).unless (ctx.signature.name? symbol)

def arityOf (ctx : Context) (symbol : Nat) : Checked Nat :=
  (Violation.unknownSymbol symbol).unless (ctx.signature.arity? symbol)

end Context

def variableText (id : Nat) : String := s!"x{id}"

def commaSeparated : List String → String
  | [] => ""
  | [s] => s
  | s :: rest => s ++ ", " ++ commaSeparated rest

def applicationText (name : String) (args : List String) : String :=
  name ++ "(" ++ commaSeparated args ++ ")"

def equalityText (lhs rhs : String) : String := lhs ++ " = " ++ rhs

end Equational
