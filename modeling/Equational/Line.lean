import Equational.Statement
import Equational.Term.Substitution

/-!
# Lines

A line of a proof is an equation together with what its terms do not tell of their
storage. A line is always stored compactly: an application is laid out anew, so its
storage is its own. A leaf at the root of a side stays as it was stored, with records that
are out of reach if there were some, and shares its table with where it was taken from.

The rewriting of equations looks at the terms only. What is kept of the storage follows
from where the leaves come from.

Where the variables of a side are looked up, they have to fit into one row, and a variable
that is moved up has to stay within a word.
-/

namespace Equational

def Term.collect (t : Term) : Checked DenseSet := DenseSet.ofIds t.vars

def Equation.collect (e : Equation) : Checked DenseSet := do
  let left ← e.lhs.collect
  let right ← e.rhs.collect
  left.union right

/-- What a term does not tell of its storage: the records that a leaf leaves out of reach, and
the number of the table. -/
structure Backing where
  spare : Array Record := #[]
  table : Option Nat := none
  deriving DecidableEq, Repr

namespace Backing

def ofShared (g : SharedGraph) : Backing :=
  match g.graph.root with
  | .func _ => {}
  | _ => { spare := g.graph.records, table := g.table }

def stored (b : Backing) : Term → SharedGraph
  | .var id => ⟨{ root := .free id, records := b.spare }, b.table⟩
  | .const symbol => ⟨{ root := .const symbol, records := b.spare }, b.table⟩
  | .app symbol args => ⟨.ofTerm (.app symbol args), b.table⟩

/-- What stays when the variables for which `changes` holds are replaced: a variable that is
replaced is a new leaf. -/
def afterChange (changes : Nat → Bool) (t : Term) (b : Backing) : Backing :=
  match t with
  | .var id => if changes id then {} else b
  | _ => b

def settled (t : Term) (b : Backing) : Backing :=
  match t with
  | .app _ _ => {}
  | _ => b

def number (b : Backing) : Numbering Backing := do
  pure { b with table := ← Numbering.keepOr b.table }

end Backing

structure Line where
  equation : Equation
  left : Backing := {}
  right : Backing := {}
  deriving DecidableEq, Repr

namespace Line

def ofStatement (s : Statement) : Line := ⟨s.equation, .ofShared s.left, .ofShared s.right⟩

def statement (ctx : Context) (l : Line) : Statement :=
  ⟨ctx, l.left.stored l.equation.lhs, l.right.stored l.equation.rhs⟩

def number (l : Line) : Numbering Line := do
  let left ← l.left.number
  let right ← l.right.number
  pure { l with left, right }

def settled (l : Line) : Line :=
  { l with
    left := l.left.settled l.equation.lhs
    right := l.right.settled l.equation.rhs }

/-- Another equation in place of the line's one, in which some variables were replaced. -/
def afterChange (changes : Nat → Bool) (l : Line) (e : Equation) : Line :=
  { equation := e
    left := l.left.afterChange changes l.equation.lhs
    right := l.right.afterChange changes l.equation.rhs }

def shift (n : Nat) (l : Line) : Checked Line :=
  if n = 0 then pure l
  else do
    require (l.equation.vars.all fun id => id + n < UInt64.size) .counterOverflow
    pure (l.afterChange (fun _ => true) (l.equation.shift n))

def assign (l : Line) (id : Nat) (value : Term) : Checked Line := do
  let _ ← l.equation.lhs.collect
  let _ ← l.equation.rhs.collect
  pure (l.afterChange (· == id) (l.equation.assign id value))

/-- Replaces the subterm at a site. At the root of a side the storage comes with the new term. -/
def replaceAt (l : Line) (site : Site) (new : Term) (backing : Backing) : Line :=
  let equation := l.equation.replaceAt site new
  let backing := if site.occurrence.isRoot then backing else {}
  match site.side with
  | .lhs => { l with equation, left := backing }
  | .rhs => { l with equation, right := backing }

end Line

structure Sentence where
  ctx : Context
  line : Line
  deriving DecidableEq, Repr

namespace Sentence

def equation (s : Sentence) : Equation := s.line.equation

def text (s : Sentence) : Checked String := (s.line.statement s.ctx).text

def summary (s : Sentence) : Checked String := do
  let text ← s.text
  pure s!"Statement({text})"

end Sentence

def Statement.sentence (s : Statement) : Sentence := ⟨s.ctx, .ofStatement s⟩

structure Rule where
  statement : Statement
  sentence : Sentence := statement.sentence
  sentence_eq : sentence = statement.sentence := by rfl
  deriving DecidableEq, Repr

namespace Rule

def ofStatement (s : Statement) : Rule := { statement := s }

def equation (r : Rule) : Equation := r.sentence.equation

end Rule

end Equational
