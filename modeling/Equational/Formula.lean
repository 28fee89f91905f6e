import Equational.Term

/-!
# Formulas

A formula is a tagged tree of equalities, variables, constants and applications. It is
well formed if an equality stands at the root or nowhere and every symbol is used with
its arity; then it is a term or an equation. A formula that is not well formed can still
be inspected and, where its symbols have names, printed.
-/

namespace Equational

inductive Formula where
  | equality (lhs rhs : Formula)
  | free (id : Nat)
  | const (symbol : Nat)
  | func (symbol : Nat) (args : List Formula)
  deriving Inhabited, Repr

namespace Formula

mutual
def decEq : (a b : Formula) → Decidable (a = b)
  | .equality a b, .equality c d =>
    match decEq a c with
    | isTrue hl =>
      match decEq b d with
      | isTrue hr => isTrue (hl ▸ hr ▸ rfl)
      | isFalse hr => isFalse fun e => hr (Formula.equality.inj e).2
    | isFalse hl => isFalse fun e => hl (Formula.equality.inj e).1
  | .free i, .free j =>
    if h : i = j then isTrue (h ▸ rfl) else isFalse fun e => h (Formula.free.inj e)
  | .const c, .const d =>
    if h : c = d then isTrue (h ▸ rfl) else isFalse fun e => h (Formula.const.inj e)
  | .func f as, .func g bs =>
    if h : f = g then
      match decEqList as bs with
      | isTrue hargs => isTrue (h ▸ hargs ▸ rfl)
      | isFalse hargs => isFalse fun e => hargs (Formula.func.inj e).2
    else isFalse fun e => h (Formula.func.inj e).1
  | .equality _ _, .free _ | .equality _ _, .const _ | .equality _ _, .func _ _
  | .free _, .equality _ _ | .free _, .const _ | .free _, .func _ _
  | .const _, .equality _ _ | .const _, .free _ | .const _, .func _ _
  | .func _ _, .equality _ _ | .func _ _, .free _ | .func _ _, .const _ => isFalse nofun
def decEqList : (as bs : List Formula) → Decidable (as = bs)
  | [], [] => isTrue rfl
  | a :: as, b :: bs =>
    match decEq a b with
    | isTrue h =>
      match decEqList as bs with
      | isTrue hs => isTrue (h ▸ hs ▸ rfl)
      | isFalse hs => isFalse fun e => hs (List.cons.inj e).2
    | isFalse h => isFalse fun e => h (List.cons.inj e).1
  | [], _ :: _ | _ :: _, [] => isFalse nofun
end

instance : DecidableEq Formula := decEq

def isEquality : Formula → Bool
  | .equality _ _ => true
  | _ => false

mutual
/-- No equality occurs, and every symbol is declared with the arity it is used at. -/
def isTyped (s : Signature) : Formula → Bool
  | .equality _ _ => false
  | .free _ => true
  | .const symbol => s.declares symbol 0
  | .func symbol args => s.declares symbol args.length && areTyped s args
def areTyped (s : Signature) : List Formula → Bool
  | [] => true
  | f :: fs => isTyped s f && areTyped s fs
end

def typeChecks (s : Signature) : Formula → Bool
  | .equality lhs rhs => lhs.isTyped s && rhs.isTyped s
  | f => f.isTyped s

mutual
def text (ctx : Context) : Formula → Checked String
  | .equality lhs rhs => do
    let lhs ← lhs.text ctx
    let rhs ← rhs.text ctx
    pure (equalityText lhs rhs)
  | .free id => pure (variableText id)
  | .const symbol => ctx.nameOf symbol
  | .func symbol args => do
    let args ← textArgs ctx args
    let name ← ctx.nameOf symbol
    pure (applicationText name args)
def textArgs (ctx : Context) : List Formula → Checked (List String)
  | [] => pure []
  | f :: fs => do
    let first ← f.text ctx
    let rest ← textArgs ctx fs
    pure (first :: rest)
end

mutual
/-- The term that a formula stands for. Arguments are looked at before the node that has
them, and the first fault met this way is reported. -/
def term : Formula → Checked Term
  | .equality lhs rhs => do
    let _ ← lhs.term
    let _ ← rhs.term
    .error .innerEquality
  | .free id => pure (.var id)
  | .const symbol => pure (.const symbol)
  | .func symbol args => do
    let args ← terms args
    require (!args.isEmpty) .recordWithoutArguments
    pure (.app symbol args)
def terms : List Formula → Checked (List Term)
  | [] => pure []
  | f :: fs => do
    let first ← f.term
    let rest ← terms fs
    pure (first :: rest)
end

def equation : Formula → Checked Equation
  | .equality lhs rhs => do
    let lhs ← lhs.term
    let rhs ← rhs.term
    pure ⟨lhs, rhs⟩
  | _ => .error .noEquality

structure Reduction (m : Type → Type) (α : Type) where
  equality : α → α → m α
  free : Nat → m α
  const : Nat → m α
  func : Nat → List α → m α

variable {m : Type → Type} [Monad m] {α : Type}

mutual
def reduce (r : Reduction m α) : Formula → m α
  | .equality lhs rhs => do
    let lhs ← lhs.reduce r
    let rhs ← rhs.reduce r
    r.equality lhs rhs
  | .free id => r.free id
  | .const symbol => r.const symbol
  | .func symbol args => do
    let args ← reduceArgs r args
    r.func symbol args
def reduceArgs (r : Reduction m α) : List Formula → m (List α)
  | [] => pure []
  | f :: fs => do
    let first ← f.reduce r
    let rest ← reduceArgs r fs
    pure (first :: rest)
end

end Formula

end Equational
