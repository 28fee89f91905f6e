import Equational.Json.Value

/-!
# Reading JSON

A document is one value with nothing but blanks around it. Lists and objects take commas
between their parts and none after the last; a number has no leading zero; a control
character stands in a string only as an escape.
-/

namespace Equational.Json

abbrev Reader (α : Type) := List Char → Option (α × List Char)

def isSpace (c : Char) : Bool := c == ' ' || c == '\n' || c == '\t' || c == '\r'

def skipSpace (cs : List Char) : List Char := cs.dropWhile isSpace

def expect : List Char → List Char → Option (List Char)
  | [], cs => some cs
  | e :: es, c :: cs => if e = c then expect es cs else none
  | _ :: _, [] => none

/-! ### Numbers -/

def digit? (c : Char) : Option Nat :=
  if '0' ≤ c ∧ c ≤ '9' then some (c.toNat - '0'.toNat) else none

def digits : List Char → List Nat × List Char
  | [] => ([], [])
  | c :: cs =>
    match digit? c with
    | some d =>
      let (ds, rest) := digits cs
      (d :: ds, rest)
    | none => ([], c :: cs)

def someDigits : Reader (List Nat) := fun cs =>
  match digits cs with
  | ([], _) => none
  | (ds, rest) => some (ds, rest)

def whole : Reader (List Nat) := fun cs =>
  match digits cs with
  | ([], _) => none
  | (0 :: _ :: _, _) => none
  | (ds, rest) => some (ds, rest)

def fraction : Reader (Option (List Nat))
  | '.' :: cs => (someDigits cs).map fun (ds, rest) => (some ds, rest)
  | cs => some (none, cs)

def exponentDigits : Reader (Bool × List Nat)
  | '+' :: cs => (someDigits cs).map fun (ds, rest) => ((false, ds), rest)
  | '-' :: cs => (someDigits cs).map fun (ds, rest) => ((true, ds), rest)
  | cs => (someDigits cs).map fun (ds, rest) => ((false, ds), rest)

def exponent : Reader (Option (Bool × List Nat))
  | 'e' :: cs | 'E' :: cs => (exponentDigits cs).map fun (e, rest) => (some e, rest)
  | cs => some (none, cs)

def unsigned (negative : Bool) : Reader Literal := fun cs => do
  let (whole, cs) ← whole cs
  let (fraction, cs) ← fraction cs
  let (exponent, cs) ← exponent cs
  pure ({ negative, whole, fraction, exponent }, cs)

def literal : Reader Literal
  | '-' :: cs => unsigned true cs
  | cs => unsigned false cs

/-! ### Strings -/

def hexDigit? (c : Char) : Option Nat :=
  if '0' ≤ c ∧ c ≤ '9' then some (c.toNat - '0'.toNat)
  else if 'a' ≤ c ∧ c ≤ 'f' then some (c.toNat - 'a'.toNat + 10)
  else if 'A' ≤ c ∧ c ≤ 'F' then some (c.toNat - 'A'.toNat + 10)
  else none

def hexUnit? (a b c d : Char) : Option Nat := do
  pure ((((← hexDigit? a) * 16 + (← hexDigit? b)) * 16 + (← hexDigit? c)) * 16 + (← hexDigit? d))

def escaped? : Char → Option Char
  | '"' => some '"'
  | '\\' => some '\\'
  | '/' => some '/'
  | 'b' => some '\x08'
  | 'f' => some '\x0c'
  | 'n' => some '\n'
  | 'r' => some '\r'
  | 't' => some '\t'
  | _ => none

def stringRest : Reader (List Piece)
  | [] => none
  | '"' :: rest => some ([], rest)
  | '\\' :: 'u' :: a :: b :: c :: d :: rest => do
    let unit ← hexUnit? a b c d
    let (pieces, rest) ← stringRest rest
    pure (.unit unit :: pieces, rest)
  | '\\' :: c :: rest => do
    let plain ← escaped? c
    let (pieces, rest) ← stringRest rest
    pure (.char plain :: pieces, rest)
  | c :: rest =>
    if c.toNat < 0x20 then none
    else do
      let (pieces, rest) ← stringRest rest
      pure (.char c :: pieces, rest)

/-! ### Values -/

mutual
/-- Reads a value. The bound has to exceed the number of characters left. -/
def valueWithin : Nat → Reader Value
  | 0, _ => none
  | bound + 1, cs =>
    match skipSpace cs with
    | 'n' :: rest => (expect ['u', 'l', 'l'] rest).map fun rest => (.null, rest)
    | 't' :: rest => (expect ['r', 'u', 'e'] rest).map fun rest => (.bool true, rest)
    | 'f' :: rest => (expect ['a', 'l', 's', 'e'] rest).map fun rest => (.bool false, rest)
    | '"' :: rest => (stringRest rest).map fun (pieces, rest) => (.string pieces, rest)
    | '[' :: rest =>
      match skipSpace rest with
      | ']' :: rest => some (.array [], rest)
      | _ => (itemsWithin bound rest).map fun (items, rest) => (.array items, rest)
    | '\x7b' :: rest =>
      match skipSpace rest with
      | '\x7d' :: rest => some (.object [], rest)
      | _ => (fieldsWithin bound rest).map fun (fields, rest) => (.object fields, rest)
    | rest => (literal rest).map fun (l, rest) => (.number l, rest)
/-- Reads the items of a list, of which there is at least one, and the closing bracket. -/
def itemsWithin : Nat → Reader (List Value)
  | 0, _ => none
  | bound + 1, cs => do
    let (item, cs) ← valueWithin bound cs
    match skipSpace cs with
    | ',' :: rest => do
      let (items, rest) ← itemsWithin bound rest
      pure (item :: items, rest)
    | ']' :: rest => pure ([item], rest)
    | _ => none
/-- Reads the fields of an object, of which there is at least one, and the closing brace. -/
def fieldsWithin : Nat → Reader (List (List Piece × Value))
  | 0, _ => none
  | bound + 1, cs =>
    match skipSpace cs with
    | '"' :: rest => do
      let (key, rest) ← stringRest rest
      let rest ← expect [':'] (skipSpace rest)
      let (value, rest) ← valueWithin bound rest
      match skipSpace rest with
      | ',' :: rest => do
        let (fields, rest) ← fieldsWithin bound rest
        pure ((key, value) :: fields, rest)
      | '\x7d' :: rest => pure ([(key, value)], rest)
      | _ => none
    | _ => none
end

def read (text : String) : Option Value := do
  let cs := text.toList
  let (value, rest) ← valueWithin (2 * cs.length + 2) cs
  if (skipSpace rest).isEmpty then some value else none

end Equational.Json
