import Equational.ParseTree

/-!
# Reading parse trees

The grammar of a line is

    statement  = expression "=" expression
    expression = name [ "(" expression { "," expression } ")" ]

with blanks allowed around every name and sign. A name is a longest run of name
characters. Each reader takes the rest of the line and gives back what it read and what
is left; a reader that fails points at the first character that cannot go on.

Expressions are read without recursion. The applications whose closing parenthesis is still to come
are kept on a stack.
-/

namespace Equational

structure Input where
  column : Nat
  chars : List Char
  deriving DecidableEq, Repr

namespace Input

def ofLine (line : List Char) : Input := ⟨0, line⟩

def skipBlanks (i : Input) : Input :=
  let blanks := i.chars.takeWhile Text.isBlank
  ⟨i.column + blanks.length, i.chars.drop blanks.length⟩

def next? (i : Input) : Option Char := i.chars.head?

def fail {α : Type} (i : Input) (fault : Fault) : Except ReadError α :=
  .error ⟨0, i.column, fault⟩

def take? (sign : Char) (i : Input) : Option Input :=
  match i.skipBlanks with
  | ⟨column, c :: rest⟩ => if c = sign then some ⟨column + 1, rest⟩ else none
  | _ => none

def expect (sign : Char) (i : Input) : Except ReadError Input :=
  match i.take? sign with
  | some rest => .ok rest
  | none => i.skipBlanks.fail (.expectedSign sign i.skipBlanks.next?)

def name (i : Input) : Except ReadError (String × Nat × Input) :=
  let start := i.skipBlanks
  let chars := start.chars.takeWhile Text.isNameChar
  if chars.isEmpty then
    start.fail (.expectedName start.next?)
  else
    .ok (String.ofList chars, start.column,
      ⟨start.column + chars.length, start.chars.drop chars.length⟩)

end Input

namespace ParseTree

structure OpenCall where
  text : String
  column : Nat
  args : List ParseTree := []

/-- A tree that was read is the next argument of the innermost open call. If it is the last one,
the call becomes a tree that was read. This goes on up to a comma, which leaves calls open, or
until there is no call left. -/
def close (tree : ParseTree) : List OpenCall → Input →
    Except ReadError ((ParseTree ⊕ List OpenCall) × Input)
  | [], i => pure (.inl tree, i)
  | call :: calls, i =>
    let args := call.args ++ [tree]
    match i.take? ',' with
    | some rest => pure (.inr ({ call with args } :: calls), rest)
    | none => do
      let rest ← i.expect ')'
      close (.name call.text args call.column) calls rest

/-- Reads on within open calls. The bound has to exceed the number of characters left. -/
def readOn : Nat → List OpenCall → Input → Except ReadError (ParseTree × Input)
  | 0, _, i => i.fail (.expectedName i.next?)
  | bound + 1, calls, i => do
    let (text, column, rest) ← i.name
    match rest.take? '(' with
    | some rest => readOn bound ({ text, column } :: calls) rest
    | none =>
      match ← close (.name text [] column) calls rest with
      | (.inl tree, rest) => pure (tree, rest)
      | (.inr calls, rest) => readOn bound calls rest

def read (i : Input) : Except ReadError (ParseTree × Input) :=
  readOn (i.chars.length + 1) [] i

def readLine (line : List Char) : Except ReadError ParseTree := do
  let (lhs, rest) ← read (.ofLine line)
  let rest ← rest.expect '='
  let (rhs, rest) ← read rest
  let rest := rest.skipBlanks
  match rest.next? with
  | some found => rest.fail (.unexpected found)
  | none => pure (.equality lhs rhs)

/-- Reads numbered lines without their comments, except those that are blank then. -/
def readLines : List (List Char × Nat) → Except ReadError (List ParseTree)
  | [] => pure []
  | (line, number) :: rest =>
    let line := Text.withoutComment line
    if line.all Text.isBlank then readLines rest
    else do
      let tree ← (readLine line).mapError (·.onLine number)
      let trees ← readLines rest
      pure (tree :: trees)

def readSource (source : List Char) : Except ReadError (List ParseTree) :=
  readLines (Text.lines source).zipIdx

end ParseTree

end Equational
