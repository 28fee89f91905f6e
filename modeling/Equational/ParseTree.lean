import Equational.Text

/-!
# Parse trees

A line of source text is an equality between two applications of names. The tree of a
line knows for every name the column it starts at, and says nothing yet about what the
names mean. An error says where reading stopped and what was wrong there.
-/

namespace Equational

inductive ParseTree where
  | equality (lhs rhs : ParseTree)
  | name (text : String) (args : List ParseTree) (column : Nat)
  deriving Inhabited, Repr

inductive Fault where
  | expectedSign (sign : Char) (found : Option Char)
  | expectedName (found : Option Char)
  | unexpected (found : Char)
  | innerEquality
  | notAFunction (name : String)
  | argumentCount (name : String) (arity found : Nat)
  | statementCount (found : Nat)
  deriving DecidableEq, Repr

def Fault.message : Fault → String
  | .expectedSign sign (some found) => s!"expected `{sign}`, found `{found}`"
  | .expectedSign sign none => s!"expected `{sign}` before end of line"
  | .expectedName (some found) => s!"expected identifier, found `{found}`"
  | .expectedName none => "expected identifier before end of line"
  | .unexpected found => s!"unexpected `{found}` after statement"
  | .innerEquality => "equality inside an expression"
  | .notAFunction name => s!"`{name}` is applied to arguments but is not a defined function"
  | .argumentCount name arity found => s!"`{name}` expects {arity} argument(s), found {found}"
  | .statementCount found => s!"expected one statement, found {found}"

/-- A fault with the line and the column where it was met, both counted from zero. -/
structure ReadError where
  line : Nat
  column : Nat
  fault : Fault
  deriving DecidableEq, Repr

namespace ReadError

def onLine (e : ReadError) (line : Nat) : ReadError := { e with line }

def message (e : ReadError) : String :=
  let line := e.line + 1
  let column := e.column + 1
  let fault := e.fault.message
  s!"parse error at {line}:{column}: {fault}"

end ReadError

end Equational
