import Equational.Proofs.Building
import Equational.Proofs.Printing
import Equational.Proofs.Successor
import Mathlib.Order.Bounds.Defs

/-!
# The rules of a kernel over time

Theorems are added to a kernel and removed from it, and symbols are defined, in any order.
What was given is told from the log of the calls alone (`Kernel.Event.live`); the kernel is not
asked. If the live batches can be put to use then the rules are the axioms and these batches, in the
order they were added, as they were given, read in the context that the kernel then has
(`Kernel.History.rule_set`). A batch that cannot be put to use stays among the statements all the
same, and then no later batch gets into the rules (`Kernel.rules_left_behind`).

A context has a label that says which one it is. A history takes it that a statement with
the label of the kernel's context is about this context.
-/

namespace Equational

/-! ### Statements read in another context -/

def Statement.readIn (ctx : Context) (s : Statement) : Statement := { s with ctx }

def Batch.readIn (ctx : Context) (b : Batch) : Batch :=
  { b with theorems := b.theorems.map (.readIn ctx) }

/-- The kernel with the context in place of its own, and all statements read in it. -/
def Kernel.readIn (ctx : Context) (k : Kernel) : Kernel :=
  { k with
    ctx
    axioms := k.axioms.map (.readIn ctx)
    batches := k.batches.map (.readIn ctx) }

theorem Statement.map_readIn_eq_self {ss : List Statement} {ctx : Context}
    (own : ∀ s ∈ ss, s.ctx = ctx) : ss.map (.readIn ctx) = ss := by
  refine (List.map_congr_left (g := id) fun s hs => ?_).trans (List.map_id _)
  rw [Statement.readIn, ← own s hs]
  rfl

theorem Statement.withContext_eq_ok_iff {s s' : Statement} {ctx : Context} :
    s.withContext ctx = .ok s' ↔ ctx.isExtensionOf s.ctx = true ∧ s.readIn ctx = s' := by
  constructor
  · intro ok
    obtain ⟨lhs, hlhs, ok⟩ := bind_eq_ok.1 ok
    obtain ⟨rhs, hrhs, ok⟩ := bind_eq_ok.1 ok
    obtain ⟨_, -, ok⟩ := bind_eq_ok.1 ok
    obtain ⟨_, hextends, hlhs⟩ := bind_eq_ok.1 hlhs
    obtain ⟨_, -, hrhs⟩ := bind_eq_ok.1 hrhs
    obtain rfl := Except.ok.inj hlhs
    obtain rfl := Except.ok.inj hrhs
    exact ⟨require_eq_ok.1 hextends, Except.ok.inj ok⟩
  · rintro ⟨hextends, rfl⟩
    have hside (e : Expression) (he : e.ctx = s.ctx) :
        e.withContext ctx = .ok { e with ctx } := by
      rw [← he] at hextends
      exact bind_eq_ok.2 ⟨(), require_eq_ok.2 hextends, rfl⟩
    have hsame : require (ctx.same ctx) .contextsDiffer = .ok () :=
      require_eq_ok.2 (Kernel.same_self ctx)
    exact bind_eq_ok.2 ⟨_, hside s.lhs rfl, bind_eq_ok.2 ⟨_, hside s.rhs rfl,
      bind_eq_ok.2 ⟨(), hsame, rfl⟩⟩⟩

theorem Statement.mapM_withContext_eq_ok_iff {ss ss' : List Statement} {ctx : Context} :
    (ss.mapM fun s => s.withContext ctx) = .ok ss' ↔
      (∀ s ∈ ss, ctx.isExtensionOf s.ctx = true) ∧ ss.map (.readIn ctx) = ss' := by
  simp only [mapM_eq_ok_iff, Statement.withContext_eq_ok_iff]
  rw [List.forall₂_and_left, ← List.forall₂_map_left_iff, List.forall₂_eq_eq_eq]

theorem Statement.isTyped_of_mem_readSource {ctx : Context} {source : String} {ss : List Statement}
    {s : Statement} (ok : readSource ctx source = .ok ss) (hs : s ∈ ss) :
    s.equation.isTyped ctx.signature = true := by
  obtain ⟨f, typed, ok⟩ := exists_ofFormula_of_mem_readSource ok hs
  obtain ⟨e, hequation, ok⟩ := bind_eq_ok.1 ok
  obtain rfl := Except.ok.inj ok
  rw [equation_ofEquation]
  cases f with
  | free | const | func => cases hequation
  | equality lhs rhs =>
    obtain ⟨l, hl, hequation⟩ := bind_eq_ok.1 hequation
    obtain ⟨r, hr, hequation⟩ := bind_eq_ok.1 hequation
    obtain rfl := Except.ok.inj hequation
    rw [Formula.typeChecks, Bool.and_eq_true] at typed
    exact Bool.and_eq_true_iff.2 ⟨Formula.isTyped_term typed.1 hl, Formula.isTyped_term typed.2 hr⟩

/-! ### Contexts with one more symbol -/

theorem Draft.define_keeps {d d' : Draft} {name : String} {arity : Nat}
    (ok : d.define name arity = .ok d') : d'.name = d.name ∧ d'.maxArity = d.maxArity := by
  rw [define] at ok
  split at ok
  next => cases ok
  next =>
    split at ok
    next => cases ok
    next =>
      obtain rfl := Except.ok.inj ok
      exact ⟨rfl, rfl⟩

theorem Context.of_withSymbol_ok {ctx larger : Context} {label : Nat} {name : String} {arity : Nat}
    (ok : ctx.withSymbol label name arity = .ok larger) :
    larger.isExtensionOf ctx = true ∧ larger.label = label ∧
      ctx.signature.symbols <+: larger.signature.symbols := by
  obtain ⟨d, hdefine, hbuild⟩ := bind_eq_ok.1 ok
  obtain ⟨hname, harity⟩ := Draft.define_keeps hdefine
  obtain ⟨-, -, hsignature⟩ := Draft.signature_of_define hdefine
  obtain ⟨rfl, -⟩ := Draft.of_build_ok hbuild
  have hgrown : ctx.signature.symbols <+: d.signature.symbols := by
    rw [hsignature]
    exact List.prefix_append _ _
  refine ⟨?_, rfl, hgrown⟩
  rw [isExtensionOf, hname, harity, List.isPrefixOf_iff_prefix.2 hgrown]
  simp

/-! ### A symbol more -/

/-- The involution with a point. -/
def Context.pointed : Context :=
  { Context.involution with signature := ⟨[⟨"i", 1⟩, ⟨"c", 0⟩]⟩, label := 1 }

/-- The point is a fixed point. -/
def Statement.fixedPoint : Statement := .ofEquation .pointed ⟨.app 0 [.const 1], .const 1⟩

/-- The last variable of all is equal to itself. -/
def Statement.topmost : Statement :=
  .ofEquation .involution ⟨.var 18446744073709551615, .var 18446744073709551615⟩

/-! ### Statements that can be put to use -/

/-- The variables of the statement can be collected, and there is a word above each of them. -/
structure Statement.IsUsable (s : Statement) : Prop where
  collected : ∃ ids, s.freeIds = .ok ids
  below : ∀ id ∈ s.equation.vars, id + 1 < UInt64.size

theorem Statement.isUsable_readIn {s : Statement} (usable : s.IsUsable) (ctx : Context) :
    (s.readIn ctx).IsUsable := ⟨usable.collected, usable.below⟩

namespace Kernel

variable {k k' k₁ start : Kernel} {ctx : Context} {theorems : List Statement} {handle : Nat}

theorem leastAbove_lt_iff {ss : List Statement} :
    leastAbove ss < UInt64.size ↔ ∀ s ∈ ss, ∀ id ∈ s.equation.vars, id + 1 < UInt64.size := by
  have least := isLeast_leastAbove ss
  constructor
  · intro hlt s hs id hid
    have hid := least.1 s hs id hid
    omega
  · intro below
    have hle : leastAbove ss ≤ UInt64.size - 1 := least.2 fun s hs id hid => by
      have hid := below s hs id hid
      omega
    have hpos : 0 < UInt64.size := by decide
    omega

/-- The kernel with all its statements put to use. -/
def refreshed (k : Kernel) : Kernel :=
  { k with rules := k.statements.map .ofStatement, bound := leastAbove k.statements }

/-- The statements are put to use together or not at all. -/
theorem rebuilt_cases (k : Kernel) :
    (k.rebuilt = .ok k.refreshed ∧ ∀ s ∈ k.statements, s.IsUsable) ∨
      (∃ cause, k.rebuilt = .error cause) ∧ ¬∀ s ∈ k.statements, s.IsUsable := by
  cases hrebuilt : k.rebuilt with
  | ok k' =>
    obtain ⟨bound, hbound, rfl⟩ := rebuilt_eq_ok_iff.1 hrebuilt
    obtain ⟨each, hword, rfl⟩ := boundOf_eq_ok_iff.1 hbound
    exact .inl ⟨rfl, fun s hs => ⟨each s hs, leastAbove_lt_iff.1 hword s hs⟩⟩
  | error cause =>
    refine .inr ⟨⟨cause, rfl⟩, fun usable => ?_⟩
    have hbound : boundOf k.statements = .ok (leastAbove k.statements) :=
      boundOf_eq_ok_iff.2 ⟨fun s hs => (usable s hs).collected,
        leastAbove_lt_iff.2 fun s hs => (usable s hs).below, rfl⟩
    cases hrebuilt.symm.trans (rebuilt_eq_ok_iff.2 ⟨_, hbound, rfl⟩)

theorem rebuilt_eq_refreshed (usable : ∀ s ∈ k.statements, s.IsUsable) :
    k.rebuilt = .ok k.refreshed :=
  ((rebuilt_cases k).resolve_right fun h => h.2 usable).1

theorem of_rebuilt_ok (ok : k.rebuilt = .ok k') :
    k' = k.refreshed ∧ ∀ s ∈ k.statements, s.IsUsable := by
  rcases rebuilt_cases k with ⟨hok, usable⟩ | ⟨⟨cause, herror⟩, -⟩
  · exact ⟨Except.ok.inj (ok.symm.trans hok), usable⟩
  · cases ok.symm.trans herror

/-- If all statements can be put to use, they are in use. -/
def IsCurrent (k : Kernel) : Prop := (∀ s ∈ k.statements, s.IsUsable) → k.refreshed = k

theorem isCurrent_refreshed (k : Kernel) : k.refreshed.IsCurrent := fun _ => rfl

section Outcomes

variable {α : Type} {value : α} {next : Checked Kernel} {result : Checked α}

/-- Whatever comes of a change, the rules are behind only if they cannot be put to use. -/
theorem IsCurrent.of_outcome (current : k.IsCurrent)
    (outcome : Outcome k value next (result, k')) : k'.IsCurrent := by
  cases outcome with
  | refused _ => exact current
  | @stuck _ cause _ error =>
    intro usable
    cases error.symm.trans (rebuilt_eq_refreshed usable)
  | @done k₁ _ _ rebuilt =>
    obtain ⟨rfl, -⟩ := of_rebuilt_ok rebuilt
    exact isCurrent_refreshed k₁

theorem eq_of_outcome_error {run : Checked α × Kernel} {cause : Violation}
    (outcome : Outcome k value next run) (error : next = .error cause) :
    run = (.error cause, k) := by
  cases outcome with
  | refused error' =>
    cases error.symm.trans error'
    rfl
  | stuck ok _ => cases error.symm.trans ok
  | done ok _ => cases error.symm.trans ok

theorem eq_of_outcome_ok {run : Checked α × Kernel} (outcome : Outcome k value next run)
    (ok : next = .ok k₁) (usable : ∀ s ∈ k₁.statements, s.IsUsable) :
    run = (.ok value, k₁.refreshed) := by
  cases outcome with
  | refused error => cases ok.symm.trans error
  | stuck ok' error =>
    cases ok.symm.trans ok'
    cases error.symm.trans (rebuilt_eq_refreshed usable)
  | done ok' rebuilt =>
    cases ok.symm.trans ok'
    rw [(of_rebuilt_ok rebuilt).1]

end Outcomes

/-! ### What each call does -/

theorem statements_eq {axioms : List Statement} {batches : List Batch}
    (haxioms : k.axioms = axioms.map (.readIn ctx))
    (hbatches : k.batches = batches.map (.readIn ctx)) :
    k.statements = (axioms ++ batches.flatMap Batch.theorems).map (.readIn ctx) := by
  rw [statements, haxioms, hbatches, List.map_append, List.map_flatMap, List.flatMap_map]
  rfl

theorem statements_readIn (k : Kernel) (ctx : Context) :
    (k.readIn ctx).statements = k.statements.map (.readIn ctx) :=
  statements_eq rfl rfl

theorem equations_refreshed (k : Kernel) :
    k.refreshed.equations = k.statements.map Statement.equation := by
  rw [equations_eq]
  exact congrArg (List.map Statement.equation) (map_statement_ofStatement k.statements)

theorem isBounded_refreshed (k : Kernel) : k.refreshed.IsBounded := by
  rw [IsBounded, equations_refreshed, List.forall_mem_map]
  exact (isLeast_leastAbove k.statements).1

theorem isValid_eq_ok_true_iff {ss : List Statement} :
    k.isValid ss = .ok true ↔ ∀ s ∈ ss, s.isTyped k.ctx.signature = .ok true := by
  rw [isValid]
  induction ss with
  | nil => exact ⟨fun _ _ hs => absurd hs List.not_mem_nil, fun _ => rfl⟩
  | cons s ss ih =>
    rw [List.forall_mem_cons, ← ih, List.allM]
    cases s.isTyped k.ctx.signature with
    | error cause =>
      constructor
      · intro h
        cases h
      · rintro ⟨h, -⟩
        cases h
    | ok typed =>
      cases typed with
      | true => exact ⟨fun h => ⟨rfl, h⟩, fun h => h.2⟩
      | false =>
        constructor
        · intro h
          cases h
        · rintro ⟨h, -⟩
          cases h

/-- A batch that is added is read in the context of the kernel, under the next handle. -/
theorem of_extended_ok (labelled : ∀ s ∈ theorems, s.ctx.same k.ctx = true → s.ctx = k.ctx)
    (ok : k.extended theorems = .ok k') :
    (∀ s ∈ theorems, s.isTyped k.ctx.signature = .ok true) ∧ k' =
      { k with
        batches := k.batches ++ [Batch.readIn k.ctx ⟨k.nextHandle, theorems⟩]
        nextHandle := k.nextHandle + 1 } := by
  obtain ⟨_, -, ok⟩ := bind_eq_ok.1 ok
  obtain ⟨valid, hvalid, ok⟩ := bind_eq_ok.1 ok
  obtain ⟨_, hrequire, ok⟩ := bind_eq_ok.1 ok
  rw [require_eq_ok.1 hrequire] at hvalid
  refine ⟨isValid_eq_ok_true_iff.1 hvalid, ?_⟩
  dsimp only at ok
  split at ok
  next hall =>
    -- theorems of the kernel's context are kept as they are
    have hread : theorems.map (.readIn k.ctx) = theorems :=
      Statement.map_readIn_eq_self fun s hs => labelled s hs (List.all_eq_true.1 hall s hs)
    rw [Batch.readIn, hread]
    exact (Except.ok.inj ok).symm
  next =>
    obtain ⟨read, hread, ok⟩ := bind_eq_ok.1 ok
    obtain ⟨-, rfl⟩ := Statement.mapM_withContext_eq_ok_iff.1 hread
    exact (Except.ok.inj ok).symm

theorem reduced_eq_ok_iff :
    k.reduced handle = .ok k' ↔ (∃ b ∈ k.batches, b.handle = handle) ∧
      k' = { k with batches := k.batches.filter fun b => b.handle != handle } := by
  constructor
  · intro ok
    obtain ⟨_, hlive, ok⟩ := bind_eq_ok.1 ok
    refine ⟨?_, (Except.ok.inj ok).symm⟩
    simpa using require_eq_ok.1 hlive
  · rintro ⟨hlive, rfl⟩
    refine bind_eq_ok.2 ⟨(), require_eq_ok.2 ?_, rfl⟩
    simpa using hlive

theorem reduced_eq_error (free : ∀ b ∈ k.batches, b.handle ≠ handle) :
    k.reduced handle = .error (.batchNotLive handle) := by
  have hnone : (k.batches.any fun b => b.handle == handle) = false := by
    simpa [List.any_eq_false] using free
  rw [reduced, hnone]
  rfl

/-- Batches whose theorems are about smaller contexts can be read in the larger one. -/
theorem mapM_batches_withContext (extended : ∀ b ∈ k.batches, ∀ s ∈ b.theorems,
      ctx.isExtensionOf s.ctx = true) :
    (k.batches.mapM fun b => do
      let theorems ← b.theorems.mapM fun s => s.withContext ctx
      pure ({ b with theorems } : Batch) : Checked (List Batch)) =
      .ok (k.batches.map (.readIn ctx)) := by
  rw [mapM_eq_ok_iff, List.forall₂_map_right_iff, List.forall₂_same]
  intro b hb
  exact bind_eq_ok.2 ⟨_, Statement.mapM_withContext_eq_ok_iff.2 ⟨extended b hb, rfl⟩, rfl⟩

/-- Where all statements are about the context of the kernel, a definition is refused because of the
symbol and never because of a statement. Otherwise all of them are read in the larger context. -/
theorem redefined_cases (homed : ∀ s ∈ k.statements, s.ctx = k.ctx) (label : Nat) (name : String)
    (arity : Nat) :
    (k.ctx.isDefined name = true ∧
      k.redefined label name arity = .error (.symbolDefined name)) ∨
    (∃ reason, k.ctx.withSymbol label name arity = .error reason ∧
      k.redefined label name arity = .error (.symbolRefused name reason)) ∨
    ∃ larger, k.ctx.withSymbol label name arity = .ok larger ∧
      k.redefined label name arity = .ok (k.readIn larger) := by
  cases hdefined : k.ctx.isDefined name with
  | true =>
    refine .inl ⟨rfl, ?_⟩
    rw [redefined, hdefined]
    rfl
  | false =>
    refine .inr ?_
    cases hsymbol : k.ctx.withSymbol label name arity with
    | error reason =>
      refine .inl ⟨reason, rfl, ?_⟩
      simp only [redefined, hdefined, hsymbol]
      rfl
    | ok larger =>
      refine .inr ⟨larger, rfl, ?_⟩
      have hextends : ∀ s ∈ k.statements, larger.isExtensionOf s.ctx = true := by
        intro s hs
        rw [homed s hs]
        exact (Context.of_withSymbol_ok hsymbol).1
      have haxioms := Statement.mapM_withContext_eq_ok_iff.2
        ⟨fun s hs => hextends s (List.mem_append_left _ hs), rfl⟩
      have hbatches := mapM_batches_withContext fun b hb s hs =>
        hextends s (List.mem_append_right _ (List.mem_flatMap.2 ⟨b, hb, hs⟩))
      simp only [redefined, hdefined, hsymbol, haxioms, hbatches]
      rfl

theorem redefined_eq_ok (homed : ∀ s ∈ k.statements, s.ctx = k.ctx) {larger : Context} {label : Nat}
    {name : String} {arity : Nat} (ok : k.ctx.withSymbol label name arity = .ok larger) :
    k.redefined label name arity = .ok (k.readIn larger) := by
  rcases redefined_cases homed label name arity with
    ⟨hdefined, -⟩ | ⟨_, herror, -⟩ | ⟨larger', hlarger, hok⟩
  · -- a name that is there already would not have been defined in the larger context
    obtain ⟨d, hdefine, -⟩ := bind_eq_ok.1 ok
    obtain ⟨-, hnew, -⟩ := Draft.signature_of_define hdefine
    rw [Context.isDefined, Context.find?, hnew] at hdefined
    cases hdefined
  · cases herror.symm.trans ok
  · obtain rfl := Except.ok.inj (hlarger.symm.trans ok)
    exact hok

/-! ### Logs -/

/-- What a call that is not refused leaves behind. A batch is logged as it was given. -/
inductive Event where
  | added (batch : Batch)
  | removed (handle : Nat)
  deriving DecidableEq

namespace Event

/-- The batches that were added and not removed later. -/
def live : List Event → List Batch
  | [] => []
  | .added b :: later => if .removed b.handle ∈ later then live later else b :: live later
  | .removed _ :: later => live later

/-- All handles that were given out. -/
def handles : List Event → List Nat
  | [] => []
  | .added b :: later => b.handle :: handles later
  | .removed _ :: later => handles later

/-- What is logged of a call that adds a batch: nothing if it is refused. -/
def ofAdd (k : Kernel) (theorems : List Statement) : List Event :=
  match k.extended theorems with
  | .ok _ => [.added ⟨k.nextHandle, theorems⟩]
  | .error _ => []

def ofRemove (k : Kernel) (handle : Nat) : List Event :=
  match k.reduced handle with
  | .ok _ => [.removed handle]
  | .error _ => []

variable {log : List Event} {b : Batch}

theorem live_append_added (log : List Event) (b : Batch) :
    live (log ++ [.added b]) = live log ++ [b] := by
  induction log with
  | nil => rfl
  | cons event later ih =>
    cases event with
    | added b' =>
      simp only [List.cons_append, live, ih, List.mem_append, List.mem_singleton, reduceCtorEq,
        or_false]
      split <;> rfl
    | removed handle => exact ih

theorem live_append_removed (log : List Event) (handle : Nat) :
    live (log ++ [.removed handle]) = (live log).filter fun b => b.handle != handle := by
  induction log with
  | nil => rfl
  | cons event later ih =>
    cases event with
    | added b =>
      simp only [List.cons_append, live, ih, List.mem_append, List.mem_singleton,
        Event.removed.injEq]
      by_cases hlater : Event.removed b.handle ∈ later
      · simp [hlater]
      · by_cases hhandle : b.handle = handle
        · subst hhandle
          simp [hlater]
        · simp [hlater, hhandle]
    | removed handle' => exact ih

theorem handles_append (log log' : List Event) :
    handles (log ++ log') = handles log ++ handles log' := by
  induction log with
  | nil => rfl
  | cons event later ih =>
    cases event with
    | added b => exact congrArg (b.handle :: ·) ih
    | removed handle => exact ih

theorem live_sublist_handles (log : List Event) :
    ((live log).map Batch.handle).Sublist (handles log) := by
  induction log with
  | nil => exact .slnil
  | cons event later ih =>
    cases event with
    | added b =>
      rw [live, handles]
      split
      next => exact ih.cons _
      next => exact ih.cons_cons _
    | removed handle => exact ih

end Event

/-! ### Histories -/

/-- The kernels that calls can lead to from the start, with the log of the calls. Calls may fail.
Searching draws on the random source, which may also be set anew. -/
inductive History (start : Kernel) : List Event → Kernel → Prop
  | new : History start [] start
  | add {log : List Event} {k k' : Kernel} {theorems : List Statement} {result : Checked Nat}
      (history : History start log k)
      (labelled : ∀ s ∈ theorems, s.ctx.same k.ctx = true → s.ctx = k.ctx)
      (run : (add theorems).on k = (result, k')) :
      History start (log ++ Event.ofAdd k theorems) k'
  | remove {log : List Event} {k k' : Kernel} {handle : Nat} {result : Checked Unit}
      (history : History start log k) (run : (remove handle).on k = (result, k')) :
      History start (log ++ Event.ofRemove k handle) k'
  | define {log : List Event} {k k' : Kernel} {label : Nat} {name : String} {arity : Nat}
      {result : Checked Unit} (history : History start log k)
      (run : (define label name arity).on k = (result, k')) : History start log k'
  | reseed {log : List Event} {k : Kernel} (history : History start log k) (rng : Lcg) :
      History start log { k with rng }

/-- What a kernel holds is told by the log. -/
structure Agrees (start : Kernel) (log : List Event) (k : Kernel) : Prop where
  axioms : k.axioms = start.axioms.map (.readIn k.ctx)
  batches : k.batches = (Event.live log).map (.readIn k.ctx)
  typed : ∀ s ∈ k.statements, s.isTyped k.ctx.signature = .ok true
  distinct : (Event.handles log).Nodup
  below : ∀ handle ∈ Event.handles log, handle < k.nextHandle

variable {log : List Event}

theorem of_read_ok {options : KernelOptions} (read : Kernel.read ctx options = .ok start) :
    (start.ctx = ctx ∧ start.batches = []) ∧
      (∀ s ∈ start.axioms, s.ctx = ctx ∧ s.isTyped ctx.signature = .ok true ∧ s.IsUsable) ∧
      start.refreshed = start := by
  obtain ⟨axioms, haxioms, hbuilt⟩ := exists_of_read read
  have hctx : ∀ s ∈ axioms, s.ctx = ctx := fun s hs => Statement.ctx_of_mem_readSource haxioms hs
  obtain ⟨hvalid, hrebuilt⟩ := ofAxioms_eq_ok_iff.1 hbuilt
  have htyped := (isValid_eq_ok_true_iff (k := ⟨ctx, options, axioms, [], 0, [], 0, ⟨0⟩⟩)).1 hvalid
  obtain ⟨rfl, usable⟩ := of_rebuilt_ok hrebuilt
  refine ⟨⟨rfl, rfl⟩, fun s hs => ⟨hctx s hs, htyped s hs, ?_⟩, rfl⟩
  exact usable s (mem_statements.2 (.inl hs))

theorem Agrees.new {options : KernelOptions} (read : Kernel.read ctx options = .ok start) :
    Agrees start [] start := by
  obtain ⟨⟨hctx, hbatches⟩, haxioms, -⟩ := of_read_ok read
  rw [← hctx] at haxioms
  refine ⟨?_, hbatches, ?_, List.nodup_nil, fun _ hhandle => absurd hhandle List.not_mem_nil⟩
  · exact (Statement.map_readIn_eq_self fun s hs => (haxioms s hs).1).symm
  · intro s hs
    rw [Kernel.statements, hbatches, List.flatMap_nil, List.append_nil] at hs
    exact (haxioms s hs).2.1

namespace Agrees

variable (agrees : Agrees start log k)

include agrees

theorem statements :
    k.statements =
      (start.axioms ++ (Event.live log).flatMap Batch.theorems).map (.readIn k.ctx) :=
  statements_eq agrees.axioms agrees.batches

theorem homed : ∀ s ∈ k.statements, s.ctx = k.ctx := by
  intro s hs
  rw [agrees.statements] at hs
  obtain ⟨s', -, rfl⟩ := List.mem_map.1 hs
  rfl

theorem of_rebuilt (ok : k.rebuilt = .ok k') : Agrees start log k' := by
  obtain ⟨rfl, -⟩ := of_rebuilt_ok ok
  exact ⟨agrees.axioms, agrees.batches, agrees.typed, agrees.distinct, agrees.below⟩

theorem extended (labelled : ∀ s ∈ theorems, s.ctx.same k.ctx = true → s.ctx = k.ctx)
    (ok : k.extended theorems = .ok k') :
    Agrees start (log ++ [.added ⟨k.nextHandle, theorems⟩]) k' := by
  obtain ⟨hvalid, rfl⟩ := of_extended_ok labelled ok
  have hhandles : Event.handles (log ++ [.added ⟨k.nextHandle, theorems⟩]) =
      Event.handles log ++ [k.nextHandle] := Event.handles_append _ _
  refine ⟨agrees.axioms, ?_, ?_, ?_, ?_⟩
  · rw [Event.live_append_added, List.map_append, ← agrees.batches]
    rfl
  · intro s hs
    rcases mem_statements.1 hs with hs | ⟨b, hb, hs⟩
    · exact agrees.typed s (mem_statements.2 (.inl hs))
    · rcases List.mem_append.1 hb with hb | hb
      · exact agrees.typed s (mem_statements.2 (.inr ⟨b, hb, hs⟩))
      · obtain rfl := List.mem_singleton.1 hb
        obtain ⟨s', hs', rfl⟩ := List.mem_map.1 hs
        exact hvalid s' hs'
  · rw [hhandles]
    refine List.nodup_append.2 ⟨agrees.distinct, List.nodup_singleton _, ?_⟩
    intro handle hhandle next hnext
    rw [List.mem_singleton.1 hnext]
    exact Nat.ne_of_lt (agrees.below handle hhandle)
  · intro handle hhandle
    rw [hhandles] at hhandle
    rcases List.mem_append.1 hhandle with hhandle | hhandle
    · exact Nat.lt_succ_of_lt (agrees.below handle hhandle)
    · rw [List.mem_singleton.1 hhandle]
      exact Nat.lt_succ_self _

theorem reduced (ok : k.reduced handle = .ok k') :
    Agrees start (log ++ [.removed handle]) k' := by
  obtain ⟨-, rfl⟩ := reduced_eq_ok_iff.1 ok
  have hhandles : Event.handles (log ++ [.removed handle]) = Event.handles log :=
    (Event.handles_append _ _).trans (List.append_nil _)
  refine ⟨agrees.axioms, ?_, ?_, hhandles ▸ agrees.distinct, hhandles ▸ agrees.below⟩
  · rw [Event.live_append_removed, agrees.batches, List.filter_map]
    rfl
  · intro s hs
    refine agrees.typed s ?_
    rcases mem_statements.1 hs with hs | ⟨b, hb, hs⟩
    · exact mem_statements.2 (.inl hs)
    · exact mem_statements.2 (.inr ⟨b, (List.mem_filter.1 hb).1, hs⟩)

theorem readIn {larger : Context} {label : Nat} {name : String} {arity : Nat}
    (valid : k.ctx.withSymbol label name arity = .ok larger) :
    Agrees start log (k.readIn larger) := by
  refine ⟨?_, ?_, ?_, agrees.distinct, agrees.below⟩
  · rw [Kernel.readIn, agrees.axioms, List.map_map]
    rfl
  · rw [Kernel.readIn, agrees.batches, List.map_map]
    refine List.map_congr_left fun b _ => ?_
    rw [Function.comp_apply, Batch.readIn, Batch.readIn, List.map_map]
    rfl
  · intro s hs
    rw [statements_readIn] at hs
    obtain ⟨s', hs', rfl⟩ := List.mem_map.1 hs
    exact Statement.isTyped_of_prefix (Context.of_withSymbol_ok valid).2.2 (agrees.typed s' hs')

theorem add {result : Checked Nat}
    (labelled : ∀ s ∈ theorems, s.ctx.same k.ctx = true → s.ctx = k.ctx)
    (run : (Kernel.add theorems).on k = (result, k')) :
    Agrees start (log ++ Event.ofAdd k theorems) k' := by
  have houtcome := outcome_add theorems k
  rw [run] at houtcome
  rw [Event.ofAdd]
  cases houtcome with
  | refused error =>
    rw [error, List.append_nil]
    exact agrees
  | stuck ok _ =>
    rw [ok]
    exact agrees.extended labelled ok
  | done ok rebuilt =>
    rw [ok]
    exact (agrees.extended labelled ok).of_rebuilt rebuilt

theorem remove {result : Checked Unit} (run : (Kernel.remove handle).on k = (result, k')) :
    Agrees start (log ++ Event.ofRemove k handle) k' := by
  have houtcome := outcome_remove handle k
  rw [run] at houtcome
  rw [Event.ofRemove]
  cases houtcome with
  | refused error =>
    rw [error, List.append_nil]
    exact agrees
  | stuck ok _ =>
    rw [ok]
    exact agrees.reduced ok
  | done ok rebuilt =>
    rw [ok]
    exact (agrees.reduced ok).of_rebuilt rebuilt

theorem redefined {label : Nat} {name : String} {arity : Nat}
    (ok : k.redefined label name arity = .ok k') : Agrees start log k' := by
  rcases redefined_cases agrees.homed label name arity with
    ⟨-, herror⟩ | ⟨_, -, herror⟩ | ⟨larger, hlarger, hok⟩
  · cases herror.symm.trans ok
  · cases herror.symm.trans ok
  · obtain rfl := Except.ok.inj (ok.symm.trans hok)
    exact agrees.readIn hlarger

theorem define {result : Checked Unit} {label : Nat} {name : String} {arity : Nat}
    (run : (Kernel.define label name arity).on k = (result, k')) : Agrees start log k' := by
  have houtcome := outcome_define label name arity k
  rw [run] at houtcome
  cases houtcome with
  | refused error => exact agrees
  | stuck ok _ => exact agrees.redefined ok
  | done ok rebuilt => exact (agrees.redefined ok).of_rebuilt rebuilt

theorem reduced_live {before after : List Batch} {b : Batch}
    (hlive : Event.live log = before ++ b :: after) :
    k.reduced b.handle = .ok { k with batches := (before ++ after).map (.readIn k.ctx) } := by
  -- the handle stands only once among those of the live batches
  have hdistinct := agrees.distinct.sublist (Event.live_sublist_handles log)
  rw [hlive, List.map_append, List.map_cons] at hdistinct
  obtain ⟨-, hafter, hbefore⟩ := List.nodup_append.1 hdistinct
  refine reduced_eq_ok_iff.2 ⟨⟨b.readIn k.ctx, ?_, rfl⟩, ?_⟩
  · rw [agrees.batches, hlive]
    simp
  · have hothers : ∀ b' ∈ before ++ after, (b'.handle != b.handle) = true := by
      intro b' hb'
      rw [bne_iff_ne]
      rcases List.mem_append.1 hb' with hb' | hb'
      · exact hbefore _ (List.mem_map_of_mem hb') _ List.mem_cons_self
      · intro heq
        exact (List.nodup_cons.1 hafter).1 (heq ▸ List.mem_map_of_mem hb')
    have hkept : (before ++ b :: after).filter (fun b' => b'.handle != b.handle) =
        before ++ after := by
      rw [List.filter_append, List.filter_cons_of_neg (by simp), ← List.filter_append]
      exact List.filter_eq_self.2 hothers
    rw [agrees.batches, hlive, List.filter_map, ← hkept]
    rfl

end Agrees

/-- The invariants of all histories. -/
theorem History.agrees {options : KernelOptions} (read : Kernel.read ctx options = .ok start)
    (history : start.History log k) : Agrees start log k := by
  induction history with
  | new => exact .new read
  | add _ labelled run ih => exact ih.add labelled run
  | remove _ run ih => exact ih.remove run
  | define _ run ih => exact ih.define run
  | reseed _ _ ih => exact ⟨ih.axioms, ih.batches, ih.typed, ih.distinct, ih.below⟩

theorem History.isCurrent {options : KernelOptions} (read : Kernel.read ctx options = .ok start)
    (history : start.History log k) : k.IsCurrent := by
  induction history with
  | new => exact fun _ => (of_read_ok read).2.2
  | @add _ k k' theorems result _ _ run ih => exact ih.of_outcome (run ▸ outcome_add theorems k)
  | @remove _ k k' handle result _ run ih => exact ih.of_outcome (run ▸ outcome_remove handle k)
  | @define _ k k' label name arity result _ run ih =>
    exact ih.of_outcome (run ▸ outcome_define label name arity k)
  | reseed _ rng ih => exact fun usable => congrArg (fun k => { k with rng }) (ih usable)

/-- If the live batches can be put to use, then all statements are in use. -/
theorem History.refreshed_eq {options : KernelOptions} (read : Kernel.read ctx options = .ok start)
    (history : start.History log k)
    (usable : ∀ b ∈ Event.live log, ∀ s ∈ b.theorems, s.IsUsable) :
    (∀ s ∈ start.axioms ++ (Event.live log).flatMap Batch.theorems, s.IsUsable) ∧
      (∀ s ∈ k.statements, s.IsUsable) ∧ k.refreshed = k := by
  have given : ∀ s ∈ start.axioms ++ (Event.live log).flatMap Batch.theorems, s.IsUsable := by
    intro s hs
    rcases List.mem_append.1 hs with hs | hs
    · exact ((of_read_ok read).2.1 s hs).2.2
    · obtain ⟨b, hb, hs⟩ := List.mem_flatMap.1 hs
      exact usable b hb s hs
  have own : ∀ s ∈ k.statements, s.IsUsable := by
    intro s hs
    rw [(history.agrees read).statements] at hs
    obtain ⟨s', hs', rfl⟩ := List.mem_map.1 hs
    exact Statement.isUsable_readIn (given s' hs') k.ctx
  exact ⟨given, own, history.isCurrent read own⟩

theorem map_rules_of_refreshed (current : k.refreshed = k) :
    k.rules.map Rule.statement = k.statements := by
  rw [← current]
  exact map_statement_ofStatement k.statements

/-! ### Answers -/

/-- Both kernels find the same equations trivial, and each of their rules in turn gives the same
rewrites of every expression. -/
def AnswersLike (k k' : Kernel) : Prop :=
  (∀ e, k.isTrivial e = k'.isTrivial e) ∧
    ∀ e i, (k.rewrites e i).map (fun r => (r.replacement, r.unbound)) =
      (k'.rewrites e i).map fun r => (r.replacement, r.unbound)

theorem isTrivial_eq (k : Kernel) (e : Equation) :
    k.isTrivial e = (e.isReflexive || k.equations.any fun rule => rule.implies e) := by
  rw [isTrivial, Equation.isTrivialIn, equations, List.any_map]
  rfl

theorem map_rewrites_eq (k : Kernel) (e : Expression) (i : Nat) :
    (k.rewrites e i).map (fun r => (r.replacement, r.unbound)) =
      (k.equations[i]?).elim [] fun rule => rule.uses e.term := by
  rw [rewrites, equations, List.getElem?_map]
  cases k.rules[i]? with
  | none => rfl
  | some rule => exact Equation.rewrites_eq_uses rule.sentence e.ctx e.term

theorem answersLike_of_equations (h : k.equations = k'.equations) : k.AnswersLike k' := by
  refine ⟨fun e => ?_, fun e i => ?_⟩
  · rw [isTrivial_eq, isTrivial_eq, h]
  · rw [map_rewrites_eq, map_rewrites_eq, h]

/-- What a stored statement is found to be depends on the tables of the rules alone. -/
theorem findsTrivial_readIn (k : Kernel) (larger : Context) (s : Statement) :
    (k.readIn larger).refreshed.findsTrivial s = k.refreshed.findsTrivial s := by
  have hrules : (k.readIn larger).refreshed.rules =
      k.refreshed.rules.map fun rule => .ofStatement (rule.statement.readIn larger) := by
    show (k.readIn larger).statements.map Rule.ofStatement = _
    rw [statements_readIn, refreshed, List.map_map, List.map_map]
    rfl
  have hany : ∀ rules : List Rule,
      ((rules.map fun rule => Rule.ofStatement (rule.statement.readIn larger)).anyM
        fun rule => rule.statement.implies s) =
      rules.anyM fun rule => rule.statement.implies s := by
    intro rules
    induction rules with
    | nil => rfl
    | cons rule rules ih =>
      rw [List.map_cons, List.anyM, List.anyM, ih]
      rfl
  rw [findsTrivial, findsTrivial, hrules, hany]

/-! ### Calls that succeed -/

theorem Agrees.exists_remove (agrees : Agrees start log k)
    (given : ∀ s ∈ start.axioms ++ (Event.live log).flatMap Batch.theorems, s.IsUsable)
    {before after : List Batch} {b : Batch} (hlive : Event.live log = before ++ b :: after) :
    ∃ k', (Kernel.remove b.handle).on k = (.ok (), k') ∧ k'.rules.map Rule.statement =
      (start.axioms ++ (before ++ after).flatMap Batch.theorems).map (.readIn k.ctx) := by
  have hstatements :
      Kernel.statements { k with batches := (before ++ after).map (.readIn k.ctx) } =
      (start.axioms ++ (before ++ after).flatMap Batch.theorems).map (.readIn k.ctx) :=
    statements_eq agrees.axioms rfl
  refine ⟨_, eq_of_outcome_ok (outcome_remove b.handle k) (agrees.reduced_live hlive) ?_, ?_⟩
  · intro s hs
    rw [hstatements] at hs
    obtain ⟨s', hs', rfl⟩ := List.mem_map.1 hs
    refine Statement.isUsable_readIn (given s' ?_) k.ctx
    rw [hlive]
    simp only [List.mem_append, List.flatMap_append, List.flatMap_cons] at hs' ⊢
    tauto
  · rw [← hstatements]
    exact map_statement_ofStatement _

/-- The batch that was added is the last one, so removing it leaves the batches there were. -/
theorem Agrees.exists_remove_of_add (agrees : Agrees start log k)
    (own : ∀ s ∈ k.statements, s.IsUsable) (current : k.refreshed = k)
    (labelled : ∀ s ∈ theorems, s.ctx.same k.ctx = true → s.ctx = k.ctx)
    (run : (Kernel.add theorems).on k = (.ok handle, k')) :
    handle ∉ Event.handles log ∧ ∃ k'', (Kernel.remove handle).on k' = (.ok (), k'') ∧
      k''.rules = k.rules ∧ k''.bound = k.bound := by
  have houtcome := outcome_add theorems k
  rw [run] at houtcome
  cases houtcome with
  | @done k₁ _ ok rebuilt =>
    have added := (agrees.extended labelled ok).of_rebuilt rebuilt
    refine ⟨fun hhandle => Nat.lt_irrefl _ (agrees.below _ hhandle), ?_⟩
    have hok := added.reduced_live (Event.live_append_added _ _)
    obtain ⟨rfl, -⟩ := of_rebuilt_ok rebuilt
    obtain ⟨-, rfl⟩ := of_extended_ok labelled ok
    rw [List.append_nil] at hok
    have hstatements : Kernel.statements
        { Kernel.refreshed
            { k with
              batches := k.batches ++ [Batch.readIn k.ctx ⟨k.nextHandle, theorems⟩]
              nextHandle := k.nextHandle + 1 } with
          batches := (Event.live log).map (.readIn k.ctx) } = k.statements := by
      rw [agrees.statements]
      exact statements_eq agrees.axioms rfl
    refine ⟨_, eq_of_outcome_ok (outcome_remove k.nextHandle _) hok (hstatements ▸ own), ?_, ?_⟩
    · refine Eq.trans ?_ (congrArg Kernel.rules current)
      exact congrArg (List.map Rule.ofStatement) hstatements
    · refine Eq.trans ?_ (congrArg Kernel.bound current)
      exact congrArg leastAbove hstatements

theorem exists_define (own : ∀ s ∈ k.statements, s.IsUsable) (current : k.refreshed = k)
    {label : Nat} {name : String} {arity : Nat} {larger : Context}
    (ok : k.redefined label name arity = .ok (k.readIn larger)) :
    ∃ k', (Kernel.define label name arity).on k = (.ok (), k') ∧ k'.ctx = larger ∧
      k'.rules.map Rule.statement = (k.rules.map Rule.statement).map (.readIn larger) ∧
      k.AnswersLike k' ∧ ∀ s, k'.findsTrivial s = k.findsTrivial s := by
  have hread : (k.readIn larger).refreshed.rules.map Rule.statement =
      (k.rules.map Rule.statement).map (.readIn larger) := by
    rw [map_rules_of_refreshed current, ← statements_readIn]
    exact map_statement_ofStatement _
  refine ⟨_, eq_of_outcome_ok (outcome_define label name arity k) ok ?_, rfl, hread, ?_, ?_⟩
  · intro s hs
    rw [statements_readIn] at hs
    obtain ⟨s', hs', rfl⟩ := List.mem_map.1 hs
    exact Statement.isUsable_readIn (own s' hs') larger
  · refine answersLike_of_equations ?_
    have hequation (ss : List Statement) :
        (ss.map (.readIn larger)).map Statement.equation = ss.map Statement.equation :=
      List.map_map
    rw [equations_eq, equations_eq, hread, hequation]
  · intro s
    rw [findsTrivial_readIn, current]

/-- **The rules of a kernel.** After any calls, those that failed included, such that the live
batches can be put to use, the rules are the axioms and the live batches as they were given, read in
the context of the kernel, where they type check. The bound is the least number above their
variables. No handle is given out twice. The handle of a live batch removes this batch and nothing
else, and no other handle removes anything; adding a batch and removing it leaves the rules as they
were. A call that is refused changes nothing. A definition is only refused because of the symbol,
and changes no answer. -/
theorem History.rule_set {options : KernelOptions} (read : Kernel.read ctx options = .ok start)
    (history : start.History log k)
    (usable : ∀ b ∈ Event.live log, ∀ s ∈ b.theorems, s.IsUsable) :
    k.rules.map Rule.statement =
      (start.axioms ++ (Event.live log).flatMap Batch.theorems).map (.readIn k.ctx) ∧
    (∀ rule ∈ k.rules, rule.statement.ctx = k.ctx ∧
      rule.statement.isTyped k.ctx.signature = .ok true) ∧
    IsLeast {n | ∀ rule ∈ k.rules, ∀ id ∈ rule.statement.equation.vars, id < n} k.bound ∧
    (Event.handles log).Nodup ∧
    (∀ before b after, Event.live log = before ++ b :: after →
      ∃ k', (Kernel.remove b.handle).on k = (.ok (), k') ∧ k'.rules.map Rule.statement =
        (start.axioms ++ (before ++ after).flatMap Batch.theorems).map (.readIn k.ctx)) ∧
    (∀ handle, (∀ b ∈ Event.live log, b.handle ≠ handle) →
      (Kernel.remove handle).on k = (.error (.batchNotLive handle), k)) ∧
    (∀ theorems cause, k.extended theorems = .error cause →
      (Kernel.add theorems).on k = (.error cause, k)) ∧
    (∀ theorems handle k', (∀ s ∈ theorems, s.ctx.same k.ctx = true → s.ctx = k.ctx) →
      (Kernel.add theorems).on k = (.ok handle, k') → handle ∉ Event.handles log ∧
        ∃ k'', (Kernel.remove handle).on k' = (.ok (), k'') ∧ k''.rules = k.rules ∧
          k''.bound = k.bound) ∧
    ∀ label name arity,
      (k.ctx.isDefined name = true ∧
        (Kernel.define label name arity).on k = (.error (.symbolDefined name), k)) ∨
      (∃ reason, k.ctx.withSymbol label name arity = .error reason ∧
        (Kernel.define label name arity).on k = (.error (.symbolRefused name reason), k)) ∨
      ∃ larger k', k.ctx.withSymbol label name arity = .ok larger ∧
        (Kernel.define label name arity).on k = (.ok (), k') ∧ k'.ctx = larger ∧
        k'.rules.map Rule.statement = (k.rules.map Rule.statement).map (.readIn larger) ∧
        k.AnswersLike k' ∧ ∀ s, k'.findsTrivial s = k.findsTrivial s := by
  have agrees := history.agrees read
  obtain ⟨given, own, current⟩ := history.refreshed_eq read usable
  have hrules := map_rules_of_refreshed current
  have hmem : ∀ rule ∈ k.rules, rule.statement ∈ k.statements := fun rule hrule =>
    hrules ▸ List.mem_map_of_mem hrule
  refine ⟨hrules.trans agrees.statements, fun rule hrule =>
    ⟨agrees.homed _ (hmem rule hrule), agrees.typed _ (hmem rule hrule)⟩, ?_,
    agrees.distinct, ?_, ?_, ?_, ?_, ?_⟩
  · have hbound : k.bound = leastAbove k.statements := congrArg Kernel.bound current.symm
    have least := isLeast_leastAbove (k.rules.map Rule.statement)
    rw [hbound, ← hrules]
    simpa only [List.forall_mem_map] using least
  · intro before b after hlive
    exact agrees.exists_remove given hlive
  · intro handle hfree
    refine eq_of_outcome_error (outcome_remove handle k) (reduced_eq_error fun b hb => ?_)
    rw [agrees.batches] at hb
    obtain ⟨b', hb', rfl⟩ := List.mem_map.1 hb
    exact hfree b' hb'
  · intro theorems cause error
    exact eq_of_outcome_error (outcome_add theorems k) error
  · intro theorems handle k' labelled run
    exact agrees.exists_remove_of_add own current labelled run
  · intro label name arity
    have houtcome := outcome_define label name arity k
    rcases redefined_cases agrees.homed label name arity with
      ⟨hdefined, herror⟩ | ⟨reason, hreason, herror⟩ | ⟨larger, hlarger, hok⟩
    · exact .inl ⟨hdefined, eq_of_outcome_error houtcome herror⟩
    · exact .inr (.inl ⟨reason, hreason, eq_of_outcome_error houtcome herror⟩)
    · obtain ⟨k', hrun, hdefined⟩ := exists_define own current hok
      exact .inr (.inr ⟨larger, k', hlarger, hrun, hdefined⟩)

/-- Two theorems are added, the second one with a symbol that was defined in between, and the first
one is removed. -/
theorem History.rule_set_involution :
    ∃ k, (involution {}).History
        [.added ⟨0, [.fourfold]⟩, .added ⟨1, [.fixedPoint]⟩, .removed 0] k ∧
      k.rules.map Rule.statement = [Statement.involution.readIn .pointed, .fixedPoint] ∧
      (Kernel.remove 0).on k = (.error (.batchNotLive 0), k) := by
  let first : Kernel :=
    Kernel.refreshed { involution {} with batches := [⟨0, [.fourfold]⟩], nextHandle := 1 }
  let second : Kernel :=
    Kernel.refreshed
      { first.readIn .pointed with
        batches := [⟨0, [Statement.fourfold.readIn .pointed]⟩, ⟨1, [.fixedPoint]⟩]
        nextHandle := 2 }
  let third : Kernel := Kernel.refreshed { second with batches := [⟨1, [.fixedPoint]⟩] }
  have hfirst : (Kernel.add [.fourfold]).on (involution {}) = (.ok 0, first) := by decide +kernel
  have hdefine : (Kernel.define 1 "c" 0).on first =
      (.ok (), (first.readIn .pointed).refreshed) := by
    decide +kernel
  have hsecond : (Kernel.add [.fixedPoint]).on (first.readIn .pointed).refreshed =
      (.ok 1, second) := by
    decide +kernel
  have hthird : (Kernel.remove 0).on second = (.ok (), third) := by decide +kernel
  have hlabelled : ∀ (s : Statement) (ctx : Context), s.ctx = ctx →
      ∀ s' ∈ [s], s'.ctx.same ctx = true → s'.ctx = ctx := by
    intro s ctx hctx s' hs' _
    rw [List.mem_singleton.1 hs', hctx]
  have history := (((History.new.add (hlabelled _ _ rfl) hfirst).define hdefine).add
    (hlabelled _ _ rfl) hsecond).remove hthird
  have usable : ∀ b ∈ [Batch.mk 1 [.fixedPoint]], ∀ s ∈ b.theorems, s.IsUsable := by
    intro b hb s hs
    obtain rfl := List.mem_singleton.1 hb
    obtain rfl := List.mem_singleton.1 hs
    exact ⟨⟨_, rfl⟩, by decide⟩
  obtain ⟨hrules, -, -, -, -, hfree, -⟩ := History.rule_set (read_involution {}) history usable
  exact ⟨third, history, hrules, hfree 0 (by decide)⟩

/-- **Rules that are left behind.** There is no word above the last variable, so a theorem that has
it is not put to use, but is kept as a batch. From then on no other theorem is put to use. -/
theorem rules_left_behind :
    ∃ k k', (add [.topmost]).on (involution {}) = (.error .counterOverflow, k) ∧
      k.statements = [.involution, .topmost] ∧ k.rules = [.ofStatement .involution] ∧
      (add [.fourfold]).on k = (.error .counterOverflow, k') ∧
      k'.statements = [.involution, .topmost, .fourfold] ∧ k'.rules = [.ofStatement .involution] :=
  ⟨{ involution {} with batches := [⟨0, [.topmost]⟩], nextHandle := 1 },
    { involution {} with batches := [⟨0, [.topmost]⟩, ⟨1, [.fourfold]⟩], nextHandle := 2 },
    by decide +kernel, rfl, rfl, by decide +kernel, rfl, rfl⟩

end Kernel

end Equational
