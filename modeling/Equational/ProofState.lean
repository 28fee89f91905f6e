import Equational.Rewrite

/-!
# Proof states

A proof state is a chain of equations of one context. It starts with the target, and each
equation after it comes from the one before by a single rewrite. The last equation is the
forefront.

Two proof states with the same chain are not the same state: what is found out about one
of them is not known of the other. So every state has a number.
-/

namespace Equational

/-- The line that a proof state adds to the chain, and the number of the state. -/
structure Stage where
  serial : Nat
  line : Line
  deriving DecidableEq, Repr

namespace Stage

def equation (s : Stage) : Equation := s.line.equation

def make (l : Line) : Numbering Stage := do
  let serial ← Numbering.fresh
  let line ← l.settled.number
  pure { serial, line }

end Stage

/-- The stage of the state itself and those before it, the nearest one first. -/
structure ProofState where
  ctx : Context
  stage : Stage
  earlier : List Stage := []
  deriving DecidableEq, Repr

namespace ProofState

def start (ctx : Context) (l : Line) : Numbering ProofState := do
  pure { ctx, stage := ← Stage.make l }

def serial (s : ProofState) : Nat := s.stage.serial

def forefront (s : ProofState) : Equation := s.stage.equation

def depth (s : ProofState) : Nat := s.earlier.length

def stages (s : ProofState) : List Stage := (s.stage :: s.earlier).reverse

def path (s : ProofState) : List Equation := s.stages.map Stage.equation

def firstStage (s : ProofState) : Stage := (s.earlier.getLast?).getD s.stage

def target (s : ProofState) : Equation := s.firstStage.equation

def parent? (s : ProofState) : Option ProofState :=
  match s.earlier with
  | [] => none
  | stage :: earlier => some { s with stage, earlier }

def child (s : ProofState) (l : Line) : Numbering ProofState := do
  pure { s with stage := ← Stage.make l, earlier := s.stage :: s.earlier }

def sentence (s : ProofState) : Sentence := ⟨s.ctx, s.stage.line⟩

def statement (s : ProofState) : Statement := s.stage.line.statement s.ctx

def targetStatement (s : ProofState) : Statement := s.firstStage.line.statement s.ctx

def statements (s : ProofState) : List Statement :=
  s.stages.map fun stage => stage.line.statement s.ctx

def texts (s : ProofState) : Checked (List String) := s.statements.mapM Statement.text

def usage (s : ProofState) (theorems : List Equation) : List Nat :=
  let steps := s.path.zip s.path.tail
  theorems.map fun rule => steps.countP fun (premise, conclusion) => rule.mayLead premise conclusion

/-- The usage of stored theorems, whose variables have to fit into rows. -/
def findUsage (s : ProofState) (theorems : List Statement) : Checked (List Nat) :=
  theorems.mapM fun rule => do
    let used ← (s.statements.zip s.statements.tail).mapM fun (premise, conclusion) =>
      rule.mayLead premise conclusion
    pure (used.countP id)

def summary (s : ProofState) : Checked String := do
  let depth := s.depth
  let forefront ← s.sentence.summary
  pure s!"ProofState \x7b depth: {depth}, forefront: {forefront} \x7d"

end ProofState

inductive Verdict where
  | proven
  | noProof
  | unfinished
  deriving DecidableEq, Repr

def Verdict.text : Verdict → String
  | .proven => "PROVEN"
  | .noProof => "NO_PROOF"
  | .unfinished => "UNFINISHED"

end Equational
