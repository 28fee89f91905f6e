import Equational.Term
import Equational.TermGraph.Fold

/-!
# What is asked of a stored term

The text of a stored term, its height, its variables and whether it is typed are found by walks
through its records, each with handlers of its own. A walk also lays the term out anew, with the
records that are within reach of the root.
-/

namespace Equational

namespace TermGraph

def printing (ctx : Context) : Term.Reduction (StateT Unit Checked) String where
  free id := pure (variableText id)
  const symbol := ctx.nameOf symbol
  func symbol args := do
    let name ← ctx.nameOf symbol
    pure (applicationText name args)

def text (ctx : Context) (g : TermGraph) : Checked String := do
  pure (← foldFrom (printing ctx) g ()).1

def measuring : Term.Reduction (StateT Unit Checked) Nat where
  free _ := pure 1
  const _ := pure 1
  func _ args := pure (1 + args.foldr max 0)

def height (g : TermGraph) : Checked Nat := do
  pure (← foldFrom measuring g ()).1

def collecting : Term.Reduction (StateT DenseSet Checked) Unit where
  free id := do
    let (_, ids) ← (← get).add id
    set ids
  const _ := pure ()
  func _ _ := pure ()

def freeIds (g : TermGraph) : Checked DenseSet := do
  pure (← foldFrom collecting g .empty).2

def typing (s : Signature) : Term.Reduction (StateT Unit Checked) Bool where
  free _ := pure true
  const symbol := pure (s.declares symbol 0)
  func symbol args := pure (s.declares symbol args.length && args.all id)

/-- Every symbol within reach of the root is declared with the arity it is used at. -/
def isTyped (s : Signature) (g : TermGraph) : Checked Bool := do
  pure (← foldFrom (typing s) g ()).1

def rebuilding : Term.Reduction (StateT TermGraph Checked) Node where
  free id := pure (.free id)
  const symbol := pure (.const symbol)
  func symbol args := do
    let g ← get
    set (← g.add symbol args)
    pure (.func g.size)

/-- The same term laid out anew. A leaf stays as it is. -/
def compact (g : TermGraph) : Checked TermGraph :=
  match g.root with
  | .func _ => do
    let (root, g) ← foldFrom rebuilding g .empty
    g.setRoot root
  | _ => pure g

end TermGraph

end Equational
