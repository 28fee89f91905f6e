import Equational.Violation
import Equational.IdMap.Dense
import Equational.TermGraph.Unfold

/-!
# Reductions worked off from an agenda

A stored term is reduced without recursion. A record is met twice: first it puts its arguments on
the agenda and itself below them, and then it takes the values of the arguments from the top of the
stack of values and leaves its own value there. Two stored terms are reduced together in the same
way.

The values of variables are kept in a row, so variables that are far apart are a violation, and so
are a record that is missing and a stack with fewer values than a record takes. Records that lead in
a circle are never done with, so a walk is given up after as many tasks as the term of the graph has
visits.
-/

namespace Equational

structure Term.Reduction (m : Type → Type) (α : Type) where
  free : Nat → m α
  const : Nat → m α
  func : Nat → List α → m α

/-! ### Visits -/

mutual
/-- The number of visits when a term is reduced, one for each leaf and two for each application. -/
def Term.visits : Term → Nat
  | .var _ | .const _ => 1
  | .app _ args => visitsArgs args + 2
def Term.visitsArgs : List Term → Nat
  | [] => 0
  | t :: ts => t.visits + visitsArgs ts
end

namespace TermGraph

variable {m : Type → Type} [Monad m] {α : Type}

def recordAt (g : TermGraph) (index : Nat) : Checked Record :=
  (Violation.indexOutOfRange index).unless g.records[index]?

/-! ### One stored term -/

inductive FoldTask where
  | visit (node : Node)
  | combine (index : Nat)
  deriving Repr

structure LeafCache (α : Type) where
  free : DenseMap α := .empty
  const : IdMap α := .empty

/-- The values of finished parts, the last one uppermost, and of the leaves met so far. -/
structure FoldState (α : Type) where
  values : List α := []
  leaves : LeafCache α := {}

def FoldState.push (s : FoldState α) (value : α) : FoldState α :=
  { s with values := value :: s.values }

def foldTask (r : Term.Reduction m α) (g : TermGraph) :
    FoldTask → FoldState α → ExceptT Violation m (List FoldTask × FoldState α)
  | .visit (.free id), s => do
    match ← s.leaves.free.get? id with
    | some value => pure ([], s.push value)
    | none =>
      let value ← r.free id
      let (_, free) ← s.leaves.free.insert id value
      pure ([], { s.push value with leaves := { s.leaves with free } })
  | .visit (.const symbol), s =>
    match s.leaves.const.get? symbol with
    | some value => pure ([], s.push value)
    | none => do
      let value ← r.const symbol
      pure ([], { s.push value with
        leaves := { s.leaves with const := s.leaves.const.insert symbol value } })
  | .visit (.func index), s => do
    let record ← g.recordAt index
    pure (record.args.map .visit ++ [.combine index], s)
  | .combine index, s => do
    let record ← g.recordAt index
    let (args, values) ← takeArgs record.arity s.values
    let value ← r.func record.symbol args
    pure ([], { s with values := value :: values })

/-- Reduces a stored term within `count` tasks. A leaf alone needs no agenda. -/
def foldWithin (count : Nat) (r : Term.Reduction m α) (g : TermGraph) : ExceptT Violation m α :=
  match g.root with
  | .free id => r.free id
  | .const symbol => r.const symbol
  | .func index => do
    let (agenda, s) ← workOff (foldTask r g) count [.visit (.func index)] {}
    lastValue "fold" agenda s.values

def fold (r : Term.Reduction m α) (g : TermGraph) : ExceptT Violation m α :=
  foldWithin g.term.visits r g

/-- Reduces a stored term with handlers that keep a state and may fail themselves. -/
def foldFrom {σ : Type} (r : Term.Reduction (StateT σ Checked) α) (g : TermGraph) (s : σ) :
    Checked (α × σ) := do
  let (result, s) ← (fold r g).run.run s
  pure (← result, s)

/-! ### Two stored terms -/

/-- What to do at each pair of nodes when two stored terms are reduced together. -/
structure PairReduction (m : Type → Type) (α : Type) where
  free : Nat → Nat → m α
  const : Nat → Nat → m α
  func : Nat → Nat → List α → m α
  other : Node → Node → m α

inductive PairTask where
  | meet (x y : Node)
  | combine (i j : Nat)
  deriving Repr

def pairTask (r : PairReduction m α) (a b : TermGraph) :
    PairTask → List α → ExceptT Violation m (List PairTask × List α)
  | .meet (.free i) (.free j), values => do pure ([], (← r.free i j) :: values)
  | .meet (.const c) (.const d), values => do pure ([], (← r.const c d) :: values)
  | .meet (.func i) (.func j), values => do
    let p ← a.recordAt i
    let q ← b.recordAt j
    if p.arity = q.arity then
      pure (List.zipWith .meet p.args q.args ++ [.combine i j], values)
    else pure ([], (← r.other (.func i) (.func j)) :: values)
  | .meet x y, values => do pure ([], (← r.other x y) :: values)
  | .combine i j, values => do
    let p ← a.recordAt i
    let q ← b.recordAt j
    let (args, values) ← takeArgs p.arity values
    pure ([], (← r.func p.symbol q.symbol args) :: values)

def foldPairWithin (count : Nat) (r : PairReduction m α) (a b : TermGraph) :
    ExceptT Violation m α := do
  let (agenda, values) ← workOff (pairTask r a b) count [.meet a.root b.root] []
  lastValue "fold_pair" agenda values

/-- Reduces two stored terms together. No more is visited than the first term has. -/
def foldPair (r : PairReduction m α) (a b : TermGraph) : ExceptT Violation m α :=
  foldPairWithin a.term.visits r a b

/-- Reduces two stored terms together with handlers that keep a state and may fail themselves. -/
def foldPairFrom {σ : Type} (r : PairReduction (StateT σ Checked) α) (a b : TermGraph) (s : σ) :
    Checked (α × σ) := do
  let (result, s) ← (foldPair r a b).run.run s
  pure (← result, s)

/-- Reduces two stored terms together, with one value for whatever does not meet. -/
def foldPairOr (r : PairReduction m α) (value : α) (a b : TermGraph) : ExceptT Violation m α :=
  foldPair { r with other := fun _ _ => pure value } a b

end TermGraph

end Equational
