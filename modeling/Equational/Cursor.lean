import Equational.Expansion

/-!
# Cursors

A cursor stands on a proof state of a supply, or after its end. A cursor at the end has
nothing to give, and says what kind of cursor it is when it is asked. A cursor that is
stuck has nothing to give either, though it has not come to its end.
-/

namespace Equational

inductive CursorKind where
  | rewriting
  | ranking
  | empty
  deriving DecidableEq, Repr

def CursorKind.text : CursorKind → String
  | .rewriting => "sub-expression"
  | .ranking => "stopping"
  | .empty => "successor"

structure Cursor where
  kind : CursorKind
  supply : Supply ProofState

namespace Cursor

def empty : Cursor := ⟨.empty, .done {}⟩

def isValid (c : Cursor) : Bool := !c.supply.isDone

def gauge (c : Cursor) : Gauge := c.supply.gauge

def size (c : Cursor) : Nat := c.supply.size

def refuse (c : Cursor) (request : Request) : Violation :=
  match c.supply with
  | .stuck level _ => .exhausted request level.text
  | _ => .exhausted request c.kind.text

def get (c : Cursor) : Checked ProofState := (c.refuse .get).unless c.supply.head?

/-- The forefront of the state that the cursor stands on. Only a cursor over rewrites knows it
without asking for the state. -/
def forefront (c : Cursor) : Checked Sentence := do
  let request := if c.kind = .rewriting then Request.forefront else .get
  let s ← (c.refuse request).unless c.supply.head?
  pure s.sentence

def text (c : Cursor) : Checked String := do
  let front ← c.forefront
  front.text

/-- Moves on to the next state. A cursor that cannot do so may have moved all the same. -/
def advance : Changes Cursor Unit := fun c source =>
  match c.supply with
  | .item _ _ next =>
    match next source with
    | .rest supply source => ((.ok (), { c with supply }), source)
    | .broken cause left source => ((.error cause, { c with supply := left }), source)
  | _ => ((.error (c.refuse .advance), c), source)

def take : (n : Nat) → Cursor → Draws (List ProofState × Cursor)
  | 0, c => pure ([], c)
  | n + 1, c =>
    if c.isValid then do
      let first ← c.get
      let (outcome, c) ← liftM (advance.runOn c)
      let _ ← outcome
      let (rest, c) ← take n c
      pure (first :: rest, c)
    else pure ([], c)

def withoutRepeats (c : Cursor) (path : List Equation) : Draws Cursor := do
  let supply ← Reply.toDraws (c.supply.reject fun s => s.forefront.repeats path)
  pure { c with supply }

end Cursor

def Kernel.cursor (k : Kernel) (s : ProofState) : Draws Cursor := do
  let supply ← k.successors s
  pure ⟨.rewriting, supply⟩

/-- A proof state together with what was found out about it: its verdict, and the cursor that
was opened to find it. -/
structure ProofNode where
  state : ProofState
  verdict : Option Verdict := none
  prepared : Option Cursor := none

namespace ProofNode

def ofState (s : ProofState) : ProofNode := { state := s }

/-- Opens a cursor over the successors. One that was opened for the verdict is handed out
first. -/
def successors (k : Kernel) (n : ProofNode) : Draws (Cursor × ProofNode) :=
  match n.prepared with
  | some cursor => pure (cursor, { n with prepared := none })
  | none => do
    let cursor ← k.cursor n.state
    pure (cursor, n)

def complete (k : Kernel) (n : ProofNode) : Draws (Verdict × ProofNode) :=
  match n.verdict with
  | some verdict => pure (verdict, n)
  | none =>
    if k.isTrivial n.state.forefront then
      pure (.proven, { n with verdict := some .proven })
    else do
      let cursor ← match n.prepared with
        | some cursor => pure cursor
        | none => k.cursor n.state
      let verdict := if cursor.isValid then Verdict.unfinished else .noProof
      pure (verdict, { n with verdict := some verdict, prepared := some cursor })

end ProofNode

end Equational
