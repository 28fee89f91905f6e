import Equational.ProofState
import Equational.Source
import Equational.Statement.Reader

/-!
# Kernels

A kernel holds the axioms of a context and any number of batches of theorems, which can
be added and removed. Axioms and theorems in the order they came are the rules, which are
put to use anew after every change. A kernel also has the random source that its searches
draw on.

A symbol can be defined in a kernel. This gives the kernel a context of its own, in which
its rules are read from then on.

A kernel is changed in place. If the rules cannot be put to use, because of variables that
are too far apart or too large, then the statements have changed and the rules have not.
-/

namespace Equational

/-- How successors are enumerated: in random order or not, with or without equations that
repeat one on the way, and the seed of the random source. -/
structure KernelOptions where
  randomised : Bool := false
  noRepeats : Bool := false
  seed : UInt64 := 0
  deriving DecidableEq, Repr

structure Batch where
  handle : Nat
  theorems : List Statement
  deriving DecidableEq, Repr

/-- A kernel keeps the rules in use and the least number above their variables, as they were found
after the last change that succeeded. -/
structure Kernel where
  ctx : Context
  options : KernelOptions
  axioms : List Statement
  batches : List Batch := []
  nextHandle : Nat := 0
  rules : List Rule := []
  bound : Nat := 0
  rng : Lcg
  deriving DecidableEq, Repr

def Equation.isTrivialIn (e : Equation) (rules : List Rule) : Bool :=
  e.isReflexive || rules.any fun rule => rule.equation.implies e

inductive KernelError where
  | unreadable (error : ReadError)
  | violated (cause : Violation)

namespace Kernel

/-! ### Rules -/

def statements (k : Kernel) : List Statement :=
  k.axioms ++ k.batches.flatMap Batch.theorems

/-- The least number above every variable of the statements, which has to be a word. -/
def boundOf (ss : List Statement) : Checked Nat := do
  let greatest ← ss.mapM fun s => do pure (← s.freeIds).greatest?
  match (greatest.filterMap id).max? with
  | none => pure 0
  | some id =>
    require (id + 1 < UInt64.size) .counterOverflow
    pure (id + 1)

def rebuilt (k : Kernel) : Checked Kernel := do
  let bound ← boundOf k.statements
  pure { k with rules := k.statements.map .ofStatement, bound }

def isValid (k : Kernel) (ss : List Statement) : Checked Bool :=
  ss.allM fun s => s.isTyped k.ctx.signature

/-! ### Construction -/

def ofAxioms (ctx : Context) (options : KernelOptions) (axioms : List Statement) :
    Checked Kernel := do
  let k : Kernel := { ctx, options, axioms, rng := ⟨options.seed⟩ }
  require (← k.isValid axioms) .axiomsIllTyped
  k.rebuilt

def read (ctx : Context) (options : KernelOptions) : Except KernelError Kernel := do
  let axioms ← (Statement.readSource ctx ("\n".intercalate ctx.axioms)).mapError .unreadable
  (ofAxioms ctx options axioms).mapError .violated

/-! ### Change -/

def extended (k : Kernel) (theorems : List Statement) : Checked Kernel := do
  require (!theorems.isEmpty) .emptyBatch
  require (← k.isValid theorems) .theoremsIllTyped
  let theorems ← if theorems.all fun s => s.ctx.same k.ctx then pure theorems
    else theorems.mapM fun s => s.withContext k.ctx
  pure
    { k with
      batches := k.batches ++ [⟨k.nextHandle, theorems⟩]
      nextHandle := k.nextHandle + 1 }

def reduced (k : Kernel) (handle : Nat) : Checked Kernel := do
  require (k.batches.any fun b => b.handle == handle) (.batchNotLive handle)
  pure { k with batches := k.batches.filter fun b => b.handle != handle }

def redefined (k : Kernel) (label : Nat) (name : String) (arity : Nat) : Checked Kernel := do
  require (!k.ctx.isDefined name) (.symbolDefined name)
  match k.ctx.withSymbol label name arity with
  | .error reason => throw (.symbolRefused name reason)
  | .ok ctx =>
    let axioms ← k.axioms.mapM fun s => s.withContext ctx
    let batches ← k.batches.mapM fun b => do
      let theorems ← b.theorems.mapM fun s => s.withContext ctx
      pure ({ b with theorems } : Batch)
    pure { k with ctx, axioms, batches }

/-- A change in place. What was changed before a violation stays changed. -/
abbrev Edit := ExceptT Violation (StateM Kernel)

/-- Changes the statements, and then puts the rules to use. -/
def Edit.change (next : Kernel → Checked Kernel) : Edit Unit := do
  set (← next (← get))
  set (← (← get).rebuilt)

def add (theorems : List Statement) : Edit Nat := do
  let handle := (← get).nextHandle
  Edit.change fun k => k.extended theorems
  pure handle

def remove (handle : Nat) : Edit Unit := Edit.change fun k => k.reduced handle

def define (label : Nat) (name : String) (arity : Nat) : Edit Unit :=
  Edit.change fun k => k.redefined label name arity

def Edit.on {α : Type} (edit : Edit α) (k : Kernel) : Checked α × Kernel := edit.run.run k

/-! ### Questions -/

def isTrivial (k : Kernel) (e : Equation) : Bool := e.isTrivialIn k.rules

/-- Whether a stored statement is trivial. -/
def findsTrivial (k : Kernel) (s : Statement) : Checked Bool :=
  if s.isReflexive then pure true else k.rules.anyM fun rule => rule.statement.implies s

/-- The ways of rewriting an expression with one rule. There are none without the rule. -/
def rewrites (k : Kernel) (e : Expression) (rule : Nat) : List Rewrite :=
  (k.rules[rule]?).elim [] fun rule => rule.sentence.rewrites e.ctx e.term

/-- Starts a proof. A target of a context that the kernel's one extends is read in that one. Both
sides are laid out anew, so the variables of each have to fit into a row. -/
def prove (k : Kernel) (target : Statement) : Draws ProofState := do
  require (target.ctx.same k.ctx || k.ctx.isExtensionOf target.ctx) .foreignTarget
  let _ ← target.equation.lhs.collect
  let _ ← target.equation.rhs.collect
  Draws.numbered (ProofState.start k.ctx (.ofStatement target))

def source (k : Kernel) : Source := { rules := k.rules, rng := k.rng }

/-- Gives each storage of an axiom a number if it has none. As long as no batch was added the rules
are the axioms, and batches are made from statements that have their numbers. -/
def number (k : Kernel) : Numbering Kernel := do
  let axioms ← k.axioms.mapM Statement.number
  let rules := if k.nextHandle = 0 then axioms.map .ofStatement else k.rules
  pure { k with axioms, rules }

/-- What the answers of a kernel depend on: its symbols and the texts of its rules. -/
def fingerprint (k : Kernel) : Checked (List Symbol × List String) := do
  let rules ← k.rules.mapM fun rule => rule.statement.text
  pure (k.ctx.signature.symbols, rules)

def summary (k : Kernel) : String :=
  let name := Text.quoted k.ctx.name
  let randomised := k.options.randomised
  let noRepeats := k.options.noRepeats
  let seed := k.options.seed
  let rules := k.rules.length
  let options := s!"KernelSettings \x7b randomised: {randomised}, no_repeats: {noRepeats}, " ++
    s!"seed: {seed} \x7d"
  s!"KnowledgeKernel \x7b context: {name}, settings: {options}, active_rules: {rules} \x7d"

end Kernel

end Equational
