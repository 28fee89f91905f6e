import Equational.Violation
import Equational.ParseTree.Reader
import Equational.Statement

/-!
# Reading statements

A name that the context defines stands for its symbol and has to be applied to as many
arguments as the arity says. Any other name is a variable and takes no arguments.
Variables are numbered from zero by their first occurrence in the statement, from left
to right.

A tree is resolved from an agenda. A symbol with arguments is met twice: first it puts its arguments
on the agenda and itself below them, and then it takes their formulas from the results.

The statements of a source text stand one on each line that is not blank.
-/

namespace Equational

namespace ParseTree

inductive ResolveTask where
  | enter (tree : ParseTree)
  | apply (symbol arity : Nat)

/-- The variables met so far in the order of their ids, and the formulas of finished parts, the last
one uppermost. -/
structure Resolving where
  known : List String
  results : List Formula := []

def Resolving.push (s : Resolving) (formula : Formula) : Resolving :=
  { s with results := formula :: s.results }

def resolveTask (ctx : Context) : ResolveTask → Resolving →
    Except ReadError (List ResolveTask × Resolving)
  | .apply symbol arity, s =>
    .ok ([], { s with
      results := .func symbol (s.results.take arity).reverse :: s.results.drop arity })
  | .enter (.equality _ _), _ => .error ⟨0, 0, .innerEquality⟩
  | .enter (.name text args column), s =>
    match ctx.find? text with
    | none =>
      if !args.isEmpty then
        .error ⟨0, column, .notAFunction text⟩
      else
        match s.known.idxOf? text with
        | some id => .ok ([], s.push (.free id))
        | none => .ok ([], { s.push (.free s.known.length) with known := s.known ++ [text] })
    | some symbol =>
      let arity := (ctx.signature.arity? symbol).getD 0
      if arity ≠ args.length then
        .error ⟨0, column, .argumentCount text arity args.length⟩
      else if arity = 0 then
        .ok ([], s.push (.const symbol))
      else
        .ok (args.map .enter ++ [.apply symbol arity], s)

mutual
def visits : ParseTree → Nat
  | .equality _ _ => 1
  | .name _ args _ => visitsArgs args + 2
def visitsArgs : List ParseTree → Nat
  | [] => 0
  | t :: ts => t.visits + visitsArgs ts
end

/-- Resolves an expression, given the variables met so far. One result is left in the end. -/
def resolveIn (ctx : Context) (known : List String) (tree : ParseTree) :
    Except ReadError (Formula × List String) := do
  let (_, s) ← workOff (resolveTask ctx) tree.visits [.enter tree] { known }
  pure (s.results.headD default, s.known)

def resolve (ctx : Context) : ParseTree → Except ReadError Formula
  | .equality lhs rhs => do
    let (lhs, known) ← lhs.resolveIn ctx []
    let (rhs, _) ← rhs.resolveIn ctx known
    pure (.equality lhs rhs)
  | tree => do
    let (formula, _) ← tree.resolveIn ctx []
    pure formula

def statementNumbers (source : List Char) : List Nat :=
  let holdsCode := fun (line : List Char) =>
    !((line.idxOf? '#').elim line line.take).all Text.isBlank
  ((Text.lines source).zipIdx.filter fun (line, _) => holdsCode line).map Prod.snd

end ParseTree

namespace Formula

def resolveAll (ctx : Context) : List ParseTree → List Nat → Except ReadError (List Formula)
  | [], _ => pure []
  | tree :: trees, numbers => do
    let formula ← (tree.resolve ctx).mapError (·.onLine (numbers.headD 0))
    let formulas ← resolveAll ctx trees numbers.tail
    pure (formula :: formulas)

def readSource (ctx : Context) (source : List Char) : Except ReadError (List Formula) := do
  let trees ← ParseTree.readSource source
  resolveAll ctx trees (ParseTree.statementNumbers source)

end Formula

namespace Statement

/-- All statements of a source text. A line that can be resolved stands for an equation, so
none is lost. -/
def readSource (ctx : Context) (source : String) : Except ReadError (List Statement) := do
  let formulas ← Formula.readSource ctx source.toList
  pure <| formulas.filterMap fun f => (ofFormula ctx f).toOption

def readOne (ctx : Context) (source : String) : Except ReadError Statement := do
  match ← readSource ctx source with
  | [s] => pure s
  | ss => throw ⟨0, 0, .statementCount ss.length⟩

end Statement

/-- An expression is read as the side of a statement that equates it with itself. -/
def Expression.read (ctx : Context) (source : String) : Except ReadError Expression := do
  let s ← Statement.readOne ctx (equalityText source source)
  pure s.lhs

end Equational
