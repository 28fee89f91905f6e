import Equational.Line
import Equational.Term.Substitution

/-!
# Rewriting a term with a rule

A rule is used in both directions. Matching one side binds the variables of that side, and
the other side under these bindings takes the place of the term. Variables that occur on
the other side only stay unbound; later each of them is assigned a variable or a constant.
-/

namespace Equational

/-- One way of rewriting a term: what takes its place, the context this belongs to, how it is
stored if it is a leaf, and the variables of the rule that the match left unbound. -/
structure Rewrite where
  ctx : Context
  replacement : Term
  backing : Backing
  unbound : List Nat
  deriving DecidableEq, Repr

/-- Whether a side of a rule is a variable that is bound, so that it stands for a part of the
term that was matched. -/
def Term.isBoundVar (t : Term) (s : Substitution) : Bool :=
  match t with
  | .var id => s.contains id
  | _ => false

namespace Sentence

/-- Rewrites a term of a context with a pattern and the other side of its rule. -/
def rewriteWith (rule : Sentence) (pattern other : Term) (backing : Backing) (ctx : Context)
    (t : Term) : Option Rewrite :=
  match pattern.match? t with
  | none => none
  | some bound =>
    some
      { ctx := if other.isBoundVar bound then ctx else rule.ctx
        replacement := other.subst bound
        backing := if other.isBoundVar bound then {} else backing
        unbound := other.freeIds.keys.filter fun id => !bound.contains id }

/-- All ways of rewriting a term with a rule, from left to right before from right to left. A
second way with the result of the first is left out. -/
def rewrites (rule : Sentence) (ctx : Context) (t : Term) : List Rewrite :=
  let ⟨⟨lhs, rhs⟩, left, right⟩ := rule.line
  let first := (rule.rewriteWith lhs rhs right ctx t).toList
  let second := (rule.rewriteWith rhs lhs left ctx t).toList
  first ++ second.filter fun r => !first.any fun r' => r'.replacement == r.replacement

end Sentence

inductive Candidate where
  | free (id : Nat)
  | const (symbol : Nat)
  deriving DecidableEq, Repr

namespace Candidate

def term : Candidate → Term
  | .free id => .var id
  | .const symbol => .const symbol

/-- The candidates for rewriting an equation: its variables in ascending order, then the
constants. -/
def all (e : Equation) (constants : List Nat) : Checked (List Candidate) := do
  let ids ← e.collect
  pure (ids.keys.map .free ++ constants.map .const)

def assign (c : Candidate) (s : Statement) (id : Nat) : Checked Statement :=
  match c with
  | .free other => s.freeToFree id other
  | .const symbol => s.freeToConst id symbol

end Candidate

namespace Equation

def hasInstance (e : Equation) (pattern : Term) : Bool :=
  e.sites.any fun site => (pattern.match? site.occurrence.term).isSome

/-- One side of the rule has an instance in the premise and the other one in the conclusion. -/
def mayLead (rule premise conclusion : Equation) : Bool :=
  (premise.hasInstance rule.lhs && conclusion.hasInstance rule.rhs) ||
    (premise.hasInstance rule.rhs && conclusion.hasInstance rule.lhs)

end Equation

/-! ### Stored rules

The same is done with a stored rule, whose variables have to fit into rows. -/

structure StoredRewrite where
  replacement : Expression
  unbound : List Nat
  deriving DecidableEq, Repr

def Expression.rewriteWith (pattern other e : Expression) : Checked (Option StoredRewrite) := do
  let (matched, bound) ← pattern.match? e
  if matched then
    let replacement ← other.mapFree bound
    let ids ← other.freeIds
    pure (some ⟨replacement, ids.keys.filter fun id => (bound.lookup id).isNone⟩)
  else pure none

namespace Statement

def rewrites (rule : Statement) (e : Expression) : Checked (List StoredRewrite) := do
  let first := (← rule.lhs.rewriteWith rule.rhs e).toList
  let second := (← rule.rhs.rewriteWith rule.lhs e).toList
  pure (first ++ second.filter fun r => !first.any fun r' => r'.replacement.identical r.replacement)

def hasInstance (s : Statement) (pattern : Expression) : Checked Bool :=
  s.positions.anyM fun (side, p) => do
    let part ← (s.side side).viewAt p.node
    let (matched, _) ← pattern.match? part
    pure matched

def leads (pattern other : Expression) (premise conclusion : Statement) : Checked Bool := do
  if ← premise.hasInstance pattern then conclusion.hasInstance other else pure false

def mayLead (rule premise conclusion : Statement) : Checked Bool := do
  if ← leads rule.lhs rule.rhs premise conclusion then pure true
  else leads rule.rhs rule.lhs premise conclusion

end Statement

end Equational
