import Equational.Signature
import Equational.Text

/-!
# Contexts

A context names a signature, bounds the arity of its symbols and carries the texts of
its axioms. It is written as a draft and becomes a context when the draft passes its
checks.

Two contexts may agree in every part and still be different ones: a statement is about
one context, and its sides have to be about the same one. The label of a context says
which one it is.
-/

namespace Equational

inductive DefinitionError where
  | redefinition (name : String)
  | invalidName (name : String)
  | arityTooLarge (name : String) (arity limit : Nat)
  | zeroMaxArity
  deriving DecidableEq, Repr

def DefinitionError.message : DefinitionError → String
  | .redefinition name => s!"symbol `{name}` is defined more than once"
  | .invalidName name => s!"`{name}` is not a valid symbol name"
  | .arityTooLarge name arity limit =>
    s!"symbol `{name}` has arity {arity}, above the limit of {limit}"
  | .zeroMaxArity => "the maximum arity must be positive"

def defaultMaxArity : Nat := 5

structure Draft where
  name : String
  maxArity : Nat := defaultMaxArity
  signature : Signature := {}
  axioms : List String := []
  deriving DecidableEq, Repr

structure Context extends Draft where
  label : Nat
  deriving DecidableEq, Repr

namespace Draft

def define (d : Draft) (name : String) (arity : Nat) : Except DefinitionError Draft :=
  let name := Text.trim name
  if name.isEmpty || !name.toList.all Text.isNameChar then
    .error (.invalidName name)
  else
    match d.signature.define? name arity with
    | none => .error (.redefinition name)
    | some signature => .ok { d with signature }

def addAxiom (d : Draft) (text : String) : Draft :=
  { d with axioms := d.axioms ++ [text] }

/-- Checks the arity limit and then, in the order of definition, every arity against it. -/
def build (d : Draft) (label : Nat) : Except DefinitionError Context :=
  if d.maxArity = 0 then
    .error .zeroMaxArity
  else
    match d.signature.symbols.find? fun symbol => d.maxArity < symbol.arity with
    | some symbol => .error (.arityTooLarge symbol.name symbol.arity d.maxArity)
    | none => .ok { d with label }

end Draft

namespace Context

def find? (ctx : Context) (name : String) : Option Nat :=
  ctx.signature.find? (Text.trim name)

def isDefined (ctx : Context) (name : String) : Bool :=
  (ctx.find? name).isSome

def same (a b : Context) : Bool := a.label == b.label

def withSymbol (ctx : Context) (label : Nat) (name : String) (arity : Nat) :
    Except DefinitionError Context := do
  (← ctx.toDraft.define name arity).build label

/-- A context extends another one if it has the same name and arity limit and starts with
the other one's symbols. -/
def isExtensionOf (larger smaller : Context) : Bool :=
  larger.name == smaller.name && larger.maxArity == smaller.maxArity &&
    smaller.signature.symbols.isPrefixOf larger.signature.symbols

end Context

end Equational
