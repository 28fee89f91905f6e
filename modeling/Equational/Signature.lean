/-!
# Signatures

A signature lists symbols in the order of their definition. The position of a symbol
is its id, and a symbol of arity zero is a constant.
-/

namespace Equational

structure Symbol where
  name : String
  arity : Nat
  deriving DecidableEq, Repr

def Symbol.role (s : Symbol) : String := if s.arity = 0 then "constant" else "function"

structure Signature where
  symbols : List Symbol := []
  deriving DecidableEq, Repr

namespace Signature

def size (s : Signature) : Nat := s.symbols.length

def get? (s : Signature) (id : Nat) : Option Symbol := s.symbols[id]?

def name? (s : Signature) (id : Nat) : Option String := (s.get? id).map Symbol.name

def arity? (s : Signature) (id : Nat) : Option Nat := (s.get? id).map Symbol.arity

def find? (s : Signature) (name : String) : Option Nat :=
  s.symbols.findIdx? fun symbol => symbol.name == name

def declares (s : Signature) (id arity : Nat) : Bool :=
  s.arity? id == some arity

def define? (s : Signature) (name : String) (arity : Nat) : Option Signature :=
  match s.find? name with
  | some _ => none
  | none => some ⟨s.symbols ++ [⟨name, arity⟩]⟩

def idsWhere (s : Signature) (p : Symbol → Bool) : List Nat :=
  (List.range s.size).filter fun id => (s.get? id).any p

def constants (s : Signature) : List Nat := s.idsWhere fun symbol => symbol.arity == 0

def functions (s : Signature) : List Nat := s.idsWhere fun symbol => symbol.arity != 0

end Signature

end Equational
