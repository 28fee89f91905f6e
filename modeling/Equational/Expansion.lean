import Equational.Kernel
import Equational.Supply

/-!
# Expansion

The successors of a proof state are the equations that one rewrite leads to. They are
enumerated in four nested ranges: the sites of the forefront, the rules, the ways of
rewriting a site with a rule, and the assignments of candidates to the variables that are
left unbound. In a randomised kernel the rules are drawn one by one from those not yet
tried, and the candidates are shuffled anew for each variable.

Before it is rewritten the forefront is moved above the variables of the rules, so that
the two have no variable in common.
-/

namespace Equational

structure Expansion where
  state : ProofState
  working : Line
  candidates : List Candidate
  randomised : Bool

namespace Expansion

def moveAbove (bound : Nat) (l : Line) : Checked Line := do
  let ids ← l.equation.collect
  match ids.least? with
  | some least => if least < bound then l.shift (bound - least) else pure l
  | none => pure l

def ofState (k : Kernel) (s : ProofState) : Draws Expansion := do
  let line ← moveAbove k.bound s.stage.line
  let working ← Draws.numbered line.number
  let candidates ← Candidate.all working.equation s.ctx.signature.constants
  pure { state := s, working, candidates, randomised := k.options.randomised }

def chooseRule (x : Expansion) : Supply.Choice :=
  if x.randomised then Supply.atRandom else Supply.inOrder

def order (x : Expansion) : Draws (List Candidate) :=
  if x.randomised then do
    let candidates ← shuffle Draws.below x.candidates.toArray
    pure candidates.toList
  else pure x.candidates

def assignments (x : Expansion) : List Nat → Line → Draws (Supply ProofState)
  | [], l => do pure (.single (← Draws.numbered (x.state.child l)))
  | id :: ids, l => do
    let candidates ← x.order
    Supply.scan .assignment Supply.inOrder (fun left size => size * (1 + left))
      (fun c => do assignments x ids (← l.assign id c.term)) candidates

/-- The line after a rewrite. At the root of a side the replacement brings its context with it,
which has to be the one of the other side. -/
def rewritten (x : Expansion) (site : Site) (r : Rewrite) : Checked Line := do
  require (!site.occurrence.isRoot || r.ctx.same x.state.ctx) .contextsDiffer
  pure (x.working.replaceAt site r.replacement r.backing)

/-- The successors at one site by the rule with the given number, as it is when the rule is
tried. -/
def byRule (x : Expansion) (site : Site) (number : Nat) : Draws (Supply ProofState) := do
  match (← Draws.rules)[number]? with
  | none => pure (.done {})
  | some rule =>
    Supply.scan .assignment Supply.inOrder (fun left size => size + left)
      (fun r => do x.assignments r.unbound (← x.rewritten site r))
      (rule.sentence.rewrites x.state.ctx site.occurrence.term)

def atSite (x : Expansion) (site : Site) : Draws (Supply ProofState) := do
  let rules ← Draws.rules
  Supply.scan .rewrite x.chooseRule (fun left size => size + left) (x.byRule site)
    (List.range rules.length)

def successors (x : Expansion) : Draws (Supply ProofState) :=
  Supply.scan .rule Supply.inOrder (fun _ size => size) x.atSite x.working.equation.sites

end Expansion

def Equation.repeats (path : List Equation) (e : Equation) : Bool :=
  path.any fun seen => seen.equivalent e

/-- The successors of a state, without repetitions of its path if the kernel is so set. -/
def Kernel.successors (k : Kernel) (s : ProofState) : Draws (Supply ProofState) := do
  let x ← Expansion.ofState k s
  let supply ← x.successors
  if k.options.noRepeats then
    Reply.toDraws (supply.reject fun next => next.forefront.repeats s.path)
  else pure supply

end Equational
