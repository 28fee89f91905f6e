/-!
# JSON values

A value keeps its numbers and strings as they are written. What a number or a string
stands for is worked out where it is asked for, so a value that nobody asks for is only
checked for its form.
-/

namespace Equational.Json

/-- A part of a string literal: a character, or an escaped code unit of sixteen bits. -/
inductive Piece where
  | char (c : Char)
  | unit (code : Nat)
  deriving DecidableEq, Repr

/-- A number literal: its sign, its digits before and after the point, and its exponent with
its sign. A literal without a point has no fraction, one without an exponent mark no exponent. -/
structure Literal where
  negative : Bool
  whole : List Nat
  fraction : Option (List Nat)
  exponent : Option (Bool × List Nat)
  deriving DecidableEq, Repr

inductive Value where
  | null
  | bool (value : Bool)
  | number (literal : Literal)
  | string (pieces : List Piece)
  | array (items : List Value)
  | object (fields : List (List Piece × Value))
  deriving Repr, Inhabited

/-! ### Strings -/

def isLeading (unit : Nat) : Bool := 0xD800 ≤ unit && unit ≤ 0xDBFF

def isTrailing (unit : Nat) : Bool := 0xDC00 ≤ unit && unit ≤ 0xDFFF

/-- The characters of a string literal. Escaped surrogates have to stand in pairs, the
leading one first. -/
def characters? : List Piece → Option (List Char)
  | [] => some []
  | .char c :: rest => (characters? rest).map (c :: ·)
  | .unit a :: .unit b :: rest =>
    if isTrailing a then none
    else if isLeading a then
      if isTrailing b then
        (characters? rest).map (Char.ofNat (0x10000 + (a - 0xD800) * 0x400 + (b - 0xDC00)) :: ·)
      else none
    else (characters? (.unit b :: rest)).map (Char.ofNat a :: ·)
  | .unit a :: rest =>
    if isTrailing a || isLeading a then none
    else (characters? rest).map (Char.ofNat a :: ·)

def string? (pieces : List Piece) : Option String :=
  (characters? pieces).map String.ofList

/-! ### Numbers -/

inductive Number where
  | natural (n : Nat)
  | negative (n : Nat)
  | float (value : Float)

def maxWord : Nat := 0xffffffffffffffff

def maxExponent : Nat := 0x7fffffff

/-- Reads digits before the point into a significand as long as it fits a word. The second
part counts the digits that were left. -/
def takeWhole (significand : Nat) : List Nat → Nat × Nat
  | [] => (significand, 0)
  | d :: ds =>
    if maxWord < significand * 10 + d then (significand, ds.length + 1)
    else takeWhole (significand * 10 + d) ds

/-- Reads digits after the point into a significand as long as it fits a word. The second
part counts the digits that were read. -/
def takeFraction (significand : Nat) : List Nat → Nat × Nat
  | [] => (significand, 0)
  | d :: ds =>
    if maxWord < significand * 10 + d then (significand, 0)
    else
      let (significand, taken) := takeFraction (significand * 10 + d) ds
      (significand, taken + 1)

def takeExponent? (value : Nat) : List Nat → Option Nat
  | [] => some value
  | d :: ds => if maxExponent < value * 10 + d then none else takeExponent? (value * 10 + d) ds

def powerOfTen (n : Nat) : Float := Float.ofScientific 1 false n

/-- Multiplies by a power of ten in one step, or divides by one in as few steps as powers up
to the 308th allow. There is no result above the greatest float. -/
def scaleWithin : Nat → Float → Int → Option Float
  | 0, f, _ => some f
  | steps + 1, f, e =>
    if e.natAbs ≤ 308 then
      if 0 ≤ e then
        let g := f * powerOfTen e.natAbs
        if g.isInf then none else some g
      else some (f / powerOfTen e.natAbs)
    else if f == 0.0 then some f
    else if 0 ≤ e then none
    else scaleWithin steps (f / powerOfTen 308) (e + 308)

def scale (significand : Nat) (e : Int) : Option Float :=
  scaleWithin (e.natAbs / 308 + 1) (UInt64.ofNat significand).toFloat e

namespace Literal

/-- The value of a literal with a fraction, an exponent, or too many digits for a word. -/
def magnitude? (significand : Nat) (shift : Int) (exponent : Option (Bool × List Nat)) :
    Option Float :=
  match exponent with
  | none => scale significand shift
  | some (down, digits) =>
    match takeExponent? 0 digits with
    | some e => scale significand (if down then shift - e else shift + e)
    | none => if significand ≠ 0 && !down then none else some 0.0

/-- The number that a literal stands for. A whole number that fits a word stays exact, any other
number is a float, and a literal beyond the floats has no value. -/
def number? (l : Literal) : Option Number :=
  let (significand, dropped) := takeWhole 0 l.whole
  if l.fraction.isNone && l.exponent.isNone && dropped == 0 then
    if !l.negative then some (.natural significand)
    else if significand ≠ 0 && significand ≤ 0x8000000000000000 then some (.negative significand)
    else some (.float (-(UInt64.ofNat significand).toFloat))
  else
    let (significand, taken) := takeFraction significand (l.fraction.getD [])
    (magnitude? significand ((dropped : Int) - taken) l.exponent).map fun f =>
      .float (if l.negative then -f else f)

end Literal

end Equational.Json
