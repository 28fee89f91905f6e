import Equational.Json.Reader

/-!
# What a document says

The parts of a document are read as texts, numbers and records. A record is an object
with known keys, each at most once, where other keys are passed over; or a list of its
fields in their order, where fields at the end may be missing.
-/

namespace Equational.Json

namespace Value

def text? : Value → Option String
  | .string pieces => string? pieces
  | _ => none

def bool? : Value → Option Bool
  | .bool value => some value
  | _ => none

def natural? : Value → Option Nat
  | .number l =>
    match l.number? with
    | some (.natural n) => some n
    | _ => none
  | _ => none

def float32? : Value → Option Float32
  | .number l =>
    match l.number? with
    | some (.natural n) => some (UInt64.ofNat n).toFloat32
    | some (.negative n) => some (-(UInt64.ofNat n).toFloat32)
    | some (.float value) => some value.toFloat32
    | none => none
  | _ => none

def list? {α : Type} (item? : Value → Option α) : Value → Option (List α)
  | .array items => items.mapM item?
  | _ => none

def optional? {α : Type} (some? : Value → Option α) : Value → Option (Option α)
  | .null => some none
  | value => (some? value).map some

def keyed? (fields : List (List Piece × Value)) : Option (List (String × Value)) :=
  fields.mapM fun (key, value) => (string? key).map fun key => (key, value)

def record? (names : List String) : Value → Option (List (Option Value))
  | .object fields => do
    let fields ← keyed? fields
    names.mapM fun name =>
      match fields.filter fun field => field.1 == name with
      | [] => some none
      | [(_, value)] => some (some value)
      | _ => none
  | .array items =>
    if names.length < items.length then none
    else some (items.map some ++ List.replicate (names.length - items.length) none)
  | _ => none

/-- A choice between alternatives: an object whose one key names the alternative. -/
def choice? : Value → Option (String × Value)
  | .object [(key, value)] => (string? key).map fun key => (key, value)
  | _ => none

end Value

def required {α : Type} (read? : Value → Option α) : Option Value → Option α
  | some value => read? value
  | none => none

def defaulting {α : Type} (read? : Value → Option α) (default : α) : Option Value → Option α
  | some value => read? value
  | none => some default

end Equational.Json
