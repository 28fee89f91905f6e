import Equational.Context
import Equational.Json.Decode

/-!
# Context documents

A context is given by a document with its name, its arity limit, its definitions and the
texts of its axioms. Every part may be missing; a definition has a name and an arity.
-/

namespace Equational

inductive ContextError where
  | document
  | definition (error : DefinitionError)
  deriving DecidableEq, Repr

structure ContextDocument where
  name : String
  maxArity : Nat
  definitions : List Symbol
  axioms : List String
  deriving DecidableEq, Repr

namespace ContextDocument

def definition? (value : Json.Value) : Option Symbol := do
  match ← value.record? ["name", "arity"] with
  | [name, arity] =>
    pure ⟨← Json.required Json.Value.text? name, ← Json.required Json.Value.natural? arity⟩
  | _ => none

def ofValue? (value : Json.Value) : Option ContextDocument := do
  match ← value.record? ["name", "max_arity", "definitions", "axioms"] with
  | [name, maxArity, definitions, axioms] =>
    pure
      { name := ← Json.defaulting Json.Value.text? "" name
        maxArity := ← Json.defaulting Json.Value.natural? defaultMaxArity maxArity
        definitions := ← Json.defaulting (Json.Value.list? definition?) [] definitions
        axioms := ← Json.defaulting (Json.Value.list? Json.Value.text?) [] axioms }
  | _ => none

def build (d : ContextDocument) (label : Nat) : Except DefinitionError Context := do
  let draft ← d.definitions.foldlM (fun draft symbol => draft.define symbol.name symbol.arity)
    ({ name := d.name, maxArity := d.maxArity, axioms := d.axioms } : Draft)
  draft.build label

end ContextDocument

def Context.read (label : Nat) (text : String) : Except ContextError Context :=
  match (Json.read text).bind ContextDocument.ofValue? with
  | none => .error .document
  | some document =>
    match document.build label with
    | .ok ctx => .ok ctx
    | .error e => .error (.definition e)

end Equational
