import Equational.Text.Unprintable

/-!
# Characters and texts

Blank characters and the lines of a text, texts between quotation marks, and bytes written as
digits of base sixteen.
-/

namespace Equational.Text

def isBlank (c : Char) : Bool :=
  let n := c.toNat
  (9 ≤ n && n ≤ 13) || n == 0x20 || n == 0x85 || n == 0xA0 || n == 0x1680 ||
    (0x2000 ≤ n && n ≤ 0x200A) || n == 0x2028 || n == 0x2029 || n == 0x202F ||
    n == 0x205F || n == 0x3000

def trimChars (cs : List Char) : List Char :=
  ((cs.dropWhile isBlank).reverse.dropWhile isBlank).reverse

def trim (s : String) : String :=
  String.ofList (trimChars s.toList)

/-- A line read so far, last character first, is closed by a line feed: a carriage
return right before it belongs to the line break. -/
def closeLine : List Char → List Char
  | '\r' :: line => line.reverse
  | line => line.reverse

/-- The lines of a text after the characters `line` (last first) of its first line. -/
def linesAfter (line : List Char) : List Char → List (List Char)
  | [] => if line.isEmpty then [] else [line.reverse]
  | '\n' :: rest => closeLine line :: linesAfter [] rest
  | c :: rest => linesAfter (c :: line) rest

/-- The lines of a text. A line feed ends a line, so no empty line follows a final one. -/
def lines (text : List Char) : List (List Char) :=
  linesAfter [] text

def withoutComment (line : List Char) : List Char :=
  line.takeWhile (· != '#')

/-- A character that may stand in a name: an ASCII letter or digit, or one of a few signs. -/
def isNameChar (c : Char) : Bool :=
  c.isAlphanum || ['+', '-', '*', '/', '.', '_', '?', '^', '%', '&'].contains c

/-! ### Quoted texts -/

def hexDigits (n : Nat) : List Char := Nat.toDigits 16 n

def escaped (c : Char) : List Char :=
  match c with
  | '\x00' => ['\\', '0']
  | '\t' => ['\\', 't']
  | '\r' => ['\\', 'r']
  | '\n' => ['\\', 'n']
  | '"' => ['\\', '"']
  | '\\' => ['\\', '\\']
  | _ => if isUnprintable c then ['\\', 'u', '\x7b'] ++ hexDigits c.toNat ++ ['\x7d'] else [c]

def quoted (s : String) : String :=
  String.ofList ('"' :: s.toList.flatMap escaped ++ ['"'])

def braced (items : List String) : String :=
  "\x7b" ++ ", ".intercalate items ++ "\x7d"

/-! ### Bytes as digits -/

def hexDigit (n : Nat) : Char := Nat.digitChar n

def hexValue (c : Char) : Nat :=
  if c.isDigit then c.toNat - '0'.toNat else c.toNat - 'a'.toNat + 10

def hex (bytes : List UInt8) : String :=
  String.ofList (bytes.flatMap fun b => [hexDigit (b.toNat / 16), hexDigit (b.toNat % 16)])

def bytesOfDigits : List Char → List UInt8
  | high :: low :: rest => UInt8.ofNat (16 * hexValue high + hexValue low) :: bytesOfDigits rest
  | _ => []

def unhex (text : String) : List UInt8 := bytesOfDigits text.toList

end Equational.Text
