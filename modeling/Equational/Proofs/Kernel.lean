import Equational.Kernel
import Equational.Proofs.Collecting
import Equational.Proofs.Handlers
import Equational.Proofs.Matching
import Mathlib.Order.Bounds.Basic

/-!
# Kernels that can be built

A kernel is built from the axioms of its context, and then changed by adding and removing
theorems and by defining symbols. If the rules cannot be put to use after a change, then the
statements of the kernel have changed and its rules have not (`Kernel.Outcome`).

Two facts about the rules are all that searching needs, and they hold whatever came of the changes
(`Kernel.Built.homed`): every rule is about the context of the kernel, and every variable of a rule
is below the bound of the kernel.
-/

namespace Equational

theorem mem_of_mapM_run {α β : Type} {f : α → Numbering β} {l : List α} {n : Nat} {b : β}
    (hb : b ∈ ((l.mapM f).run n).1) : ∃ a ∈ l, ∃ m, ((f a).run m).1 = b := by
  induction l generalizing n with
  | nil => exact absurd hb List.not_mem_nil
  | cons a l ih =>
    simp only [List.mapM_cons, StateT.run_bind, StateT.run_pure] at hb
    rcases List.mem_cons.1 hb with rfl | hb
    · exact ⟨a, List.mem_cons_self, n, rfl⟩
    · obtain ⟨a', ha', hf⟩ := ih hb
      exact ⟨a', List.mem_cons_of_mem _ ha', hf⟩

namespace Statement

theorem ctx_of_withContext {s s' : Statement} {ctx : Context} (h : s.withContext ctx = .ok s') :
    s'.ctx = ctx := by
  obtain ⟨lhs, hlhs, h⟩ := bind_eq_ok.1 h
  obtain ⟨rhs, _, h⟩ := bind_eq_ok.1 h
  obtain ⟨_, _, h⟩ := bind_eq_ok.1 h
  obtain rfl := Except.ok.inj h
  obtain ⟨_, _, hlhs⟩ := bind_eq_ok.1 hlhs
  obtain rfl := Except.ok.inj hlhs
  rfl

theorem ctx_of_mem_readSource {ctx : Context} {source : String} {ss : List Statement}
    (h : readSource ctx source = .ok ss) {s : Statement} (hs : s ∈ ss) : s.ctx = ctx := by
  obtain ⟨formulas, _, h⟩ := bind_eq_ok.1 h
  obtain rfl := Except.ok.inj h
  obtain ⟨f, _, hf⟩ := List.mem_filterMap.1 hs
  obtain ⟨e, _, hf⟩ := bind_eq_ok.1 (toOption_eq_some.1 hf)
  obtain rfl := Except.ok.inj hf
  rfl

end Statement

theorem Rule.equation_eq (rule : Rule) : rule.equation = rule.statement.equation := by
  rw [Rule.equation, rule.sentence_eq]
  rfl

namespace Kernel

variable {k k' : Kernel} {ss ss' : List Statement} {bound : Nat}

/-! ### The bound -/

/-- The least number above every variable of the statements. -/
def leastAbove (ss : List Statement) : Nat :=
  (ss.filterMap fun s => s.equation.freeIds.greatest?).max?.elim 0 (· + 1)

theorem leastAbove_congr (h : ss.map Statement.equation = ss'.map Statement.equation) :
    leastAbove ss = leastAbove ss' := by
  have hmap (ss : List Statement) : (ss.filterMap fun s => s.equation.freeIds.greatest?) =
      (ss.map Statement.equation).filterMap fun e => e.freeIds.greatest? := by
    rw [List.filterMap_map]
    rfl
  rw [leastAbove, leastAbove, hmap, hmap, h]

theorem isLeast_leastAbove (ss : List Statement) :
    IsLeast {n | ∀ s ∈ ss, ∀ id ∈ s.equation.vars, id < n} (leastAbove ss) := by
  rw [leastAbove]
  cases hmax : (ss.filterMap fun s => s.equation.freeIds.greatest?).max? with
  | none =>
    rw [List.max?_eq_none_iff, List.filterMap_eq_nil_iff] at hmax
    refine ⟨fun s hs id hid => ?_, fun n _ => Nat.zero_le n⟩
    have hno := IdSet.greatest?_eq_none _ (hmax s hs) id
    rw [(Equation.contains_freeIds _ _).2 hid] at hno
    cases hno
  | some greatest =>
    obtain ⟨hmem, hgreatest⟩ := List.max?_eq_some_iff.1 hmax
    refine ⟨fun s hs id hid => ?_, fun n hn => ?_⟩
    · have hcontains := (Equation.contains_freeIds _ _).2 hid
      cases hs' : s.equation.freeIds.greatest? with
      | none =>
        rw [IdSet.greatest?_eq_none _ hs'] at hcontains
        cases hcontains
      | some last =>
        have hle := IdSet.le_greatest? _ hs' hcontains
        have hlast := hgreatest last (List.mem_filterMap.2 ⟨s, hs, hs'⟩)
        exact Nat.lt_succ_of_le (hle.trans hlast)
    · obtain ⟨s, hs, hs'⟩ := List.mem_filterMap.1 hmem
      exact hn s hs greatest
        ((Equation.contains_freeIds _ _).1 (IdSet.contains_greatest? _ hs'))

theorem boundOf_eq (each : ∀ s ∈ ss, ∃ ids, s.freeIds = .ok ids) :
    boundOf ss =
      if leastAbove ss < UInt64.size then .ok (leastAbove ss) else .error .counterOverflow := by
  have hgreatest : ∀ s ∈ ss, (do pure (← s.freeIds).greatest? : Checked (Option Nat)) =
      .ok s.equation.freeIds.greatest? := by
    intro s hs
    obtain ⟨ids, hids⟩ := each s hs
    have hcollect : s.equation.collect = .ok ids :=
      (Statement.denotes_of_freeIds hids).freeIds_eq ▸ hids
    rw [hids, ← Equation.toIdMap_of_collect hcollect]
    rfl
  have hfilter : (ss.map fun s => s.equation.freeIds.greatest?).filterMap id =
      ss.filterMap fun s => s.equation.freeIds.greatest? := List.filterMap_map
  rw [boundOf, mapM_eq_ok_map hgreatest, ok_bind, hfilter, leastAbove]
  cases (ss.filterMap fun s => s.equation.freeIds.greatest?).max? with
  | none => rfl
  | some id =>
    dsimp only
    rw [Option.elim_some, require]
    by_cases hword : id + 1 < UInt64.size
    · rw [if_pos hword, if_pos (decide_eq_true hword)]
      rfl
    · rw [if_neg hword, if_neg (by simpa using hword)]
      rfl

/-- The bound is found if and only if the variables of each statement can be collected and the least
number above them is a word. -/
theorem boundOf_eq_ok_iff :
    boundOf ss = .ok bound ↔ (∀ s ∈ ss, ∃ ids, s.freeIds = .ok ids) ∧
      leastAbove ss < UInt64.size ∧ bound = leastAbove ss := by
  constructor
  · intro ok
    have each : ∀ s ∈ ss, ∃ ids, s.freeIds = .ok ids := by
      intro s hs
      obtain ⟨greatest, hgreatest, -⟩ := bind_eq_ok.1 ok
      obtain ⟨_, hids⟩ := exists_of_mapM_ok hgreatest hs
      obtain ⟨ids, hids, -⟩ := bind_eq_ok.1 hids
      exact ⟨ids, hids⟩
    rw [boundOf_eq each] at ok
    split at ok
    next hword => exact ⟨each, hword, (Except.ok.inj ok).symm⟩
    next => cases ok
  · rintro ⟨each, hword, rfl⟩
    rw [boundOf_eq each, if_pos hword]

/-! ### Changes -/

/-- What can come of a change of the statements: it is refused, or the rules cannot be put to use
after it, or they can. -/
inductive Outcome {α : Type} (k : Kernel) (value : α) (next : Checked Kernel) :
    Checked α × Kernel → Prop
  | refused {cause : Violation} (error : next = .error cause) :
      Outcome k value next (.error cause, k)
  | stuck {k₁ : Kernel} {cause : Violation} (ok : next = .ok k₁)
      (error : k₁.rebuilt = .error cause) : Outcome k value next (.error cause, k₁)
  | done {k₁ k₂ : Kernel} (ok : next = .ok k₁) (rebuilt : k₁.rebuilt = .ok k₂) :
      Outcome k value next (.ok value, k₂)

theorem outcome_change (next : Kernel → Checked Kernel) (k : Kernel) :
    Outcome k () (next k) ((Edit.change next).on k) := by
  cases hnext : next k with
  | error cause =>
    have hon : (Edit.change next).on k = (.error cause, k) := by
      show ((liftM (next k) : Edit Kernel) >>= fun _ => _).on k = _
      rw [hnext]
      rfl
    rw [hon]
    exact .refused rfl
  | ok k₁ =>
    have hon : (Edit.change next).on k =
        ((liftM k₁.rebuilt : Edit Kernel) >>= fun k₂ => set k₂).on k₁ := by
      show ((liftM (next k) : Edit Kernel) >>= fun _ => _).on k = _
      rw [hnext]
      rfl
    cases hrebuilt : k₁.rebuilt with
    | error cause =>
      rw [hon, hrebuilt]
      exact .stuck rfl hrebuilt
    | ok k₂ =>
      rw [hon, hrebuilt]
      exact .done rfl hrebuilt

theorem outcome_add (theorems : List Statement) (k : Kernel) :
    Outcome k k.nextHandle (k.extended theorems) ((add theorems).on k) := by
  have hon : (add theorems).on k =
      (((Edit.change fun k => k.extended theorems).on k).1.map fun _ => k.nextHandle,
        ((Edit.change fun k => k.extended theorems).on k).2) := by
    show (((Edit.change fun k => k.extended theorems) >>= fun _ =>
      (pure k.nextHandle : Edit Nat)).on k) = _
    rw [Edit.on, Edit.on, ExceptT.run_bind, StateT.run_bind]
    generalize (Edit.change fun k => k.extended theorems).run.run k = outcome
    obtain ⟨result, k'⟩ := outcome
    cases result with
    | error cause => rfl
    | ok u => rfl
  have houtcome := outcome_change (fun k => k.extended theorems) k
  rw [hon]
  generalize (Edit.change fun k => k.extended theorems).on k = outcome at houtcome ⊢
  cases houtcome with
  | refused error => exact .refused error
  | stuck ok error => exact .stuck ok error
  | done ok rebuilt => exact .done ok rebuilt

theorem outcome_remove (handle : Nat) (k : Kernel) :
    Outcome k () (k.reduced handle) ((remove handle).on k) :=
  outcome_change (fun k => k.reduced handle) k

theorem outcome_define (label : Nat) (name : String) (arity : Nat) (k : Kernel) :
    Outcome k () (k.redefined label name arity) ((define label name arity).on k) :=
  outcome_change (fun k => k.redefined label name arity) k

theorem rebuilt_eq_ok_iff :
    k.rebuilt = .ok k' ↔ ∃ bound, boundOf k.statements = .ok bound ∧
      k' = { k with rules := k.statements.map .ofStatement, bound } := by
  rw [rebuilt, bind_eq_ok]
  exact exists_congr fun bound =>
    and_congr Iff.rfl ⟨fun h => (Except.ok.inj h).symm, fun h => h ▸ rfl⟩

/-! ### Building -/

/-- The kernels that come from reading the axioms of a context by changes, of which all but the
definitions may fail. Searching draws on the random source, which may also be set anew; storing a
kernel numbers its tables. -/
inductive Built : Kernel → Prop
  | read {ctx : Context} {options : KernelOptions} {k : Kernel} (ok : read ctx options = .ok k) :
      Built k
  | add {k k' : Kernel} {theorems : List Statement} {result : Checked Nat} (built : Built k)
      (run : (add theorems).on k = (result, k')) : Built k'
  | remove {k k' : Kernel} {handle : Nat} {result : Checked Unit} (built : Built k)
      (run : (remove handle).on k = (result, k')) : Built k'
  | define {k k' : Kernel} {label : Nat} {name : String} {arity : Nat} (built : Built k)
      (run : (define label name arity).on k = (.ok (), k')) : Built k'
  | reseed {k : Kernel} (built : Built k) (rng : Lcg) : Built { k with rng }
  | number {k : Kernel} (built : Built k) (n : Nat) : Built (k.number.run n).1

/-- The equations of the rules. -/
def equations (k : Kernel) : List Equation := k.rules.map Rule.equation

/-- The variables of the rules are below the bound. -/
def IsBounded (k : Kernel) : Prop := ∀ e ∈ k.equations, ∀ id ∈ e.vars, id < k.bound

/-- Every rule is about the context of the kernel, and its variables are below the bound. -/
structure IsHomed (k : Kernel) : Prop where
  same : ∀ rule ∈ k.rules, rule.statement.ctx.same k.ctx = true
  bounded : k.IsBounded

/-- What every change keeps. The rules in use were put to use together with the bound, so their
variables were collected. As long as there was no batch the rules are the axioms. -/
structure IsKept (k : Kernel) : Prop where
  own : ∀ s ∈ k.statements, s.ctx.same k.ctx = true
  same : ∀ rule ∈ k.rules, rule.statement.ctx.same k.ctx = true
  bound : boundOf (k.rules.map Rule.statement) = .ok k.bound
  untouched : k.nextHandle = 0 → k.batches = [] ∧ k.rules = k.axioms.map .ofStatement

theorem mem_statements {s : Statement} :
    s ∈ k.statements ↔ s ∈ k.axioms ∨ ∃ b ∈ k.batches, s ∈ b.theorems := by
  rw [statements, List.mem_append, List.mem_flatMap]

theorem same_self (ctx : Context) : ctx.same ctx = true := beq_self_eq_true ctx.label

theorem homed_of_mapM {ctx : Context} (h : (ss.mapM fun s => s.withContext ctx) = .ok ss')
    {s : Statement} (hs : s ∈ ss') : s.ctx.same ctx = true := by
  obtain ⟨s₀, _, hs₀⟩ := mem_of_mapM_ok h hs
  rw [Statement.ctx_of_withContext hs₀]
  exact same_self ctx

theorem map_statement_ofStatement (ss : List Statement) :
    (ss.map Rule.ofStatement).map Rule.statement = ss := by
  rw [List.map_map]
  exact List.map_id ss

theorem isKept_of_rebuilt (own : ∀ s ∈ k.statements, s.ctx.same k.ctx = true)
    (untouched : k.nextHandle = 0 → k.batches = []) (ok : k.rebuilt = .ok k') : k'.IsKept := by
  obtain ⟨bound, hbound, rfl⟩ := rebuilt_eq_ok_iff.1 ok
  refine ⟨own, ?_, ?_, fun hnew => ⟨untouched hnew, ?_⟩⟩
  · intro rule hrule
    obtain ⟨s, hs, rfl⟩ := List.mem_map.1 hrule
    exact own s hs
  · exact (map_statement_ofStatement k.statements).symm ▸ hbound
  · show k.statements.map Rule.ofStatement = k.axioms.map Rule.ofStatement
    rw [statements, untouched hnew, List.flatMap_nil, List.append_nil]

/-- Whatever comes of a change, what the changed statements keep is kept. -/
theorem IsKept.of_outcome {α : Type} {value : α} {next : Checked Kernel} {result : Checked α}
    (kept : k.IsKept) (outcome : Outcome k value next (result, k'))
    (step : ∀ k₁, next = .ok k₁ → k₁.IsKept) : k'.IsKept := by
  cases outcome with
  | refused _ => exact kept
  | stuck ok _ => exact step _ ok
  | done ok rebuilt =>
    have kept' := step _ ok
    exact isKept_of_rebuilt kept'.own (fun hnew => (kept'.untouched hnew).1) rebuilt

theorem IsKept.extended {theorems : List Statement} (kept : k.IsKept)
    (ok : k.extended theorems = .ok k') : k'.IsKept := by
  obtain ⟨_, _, ok⟩ := bind_eq_ok.1 ok
  obtain ⟨_, _, ok⟩ := bind_eq_ok.1 ok
  obtain ⟨_, _, ok⟩ := bind_eq_ok.1 ok
  obtain ⟨new, hnew, rfl⟩ : ∃ new : List Statement,
      (∀ s ∈ new, s.ctx.same k.ctx = true) ∧
        { k with
          batches := k.batches ++ [⟨k.nextHandle, new⟩]
          nextHandle := k.nextHandle + 1 } = k' := by
    dsimp only at ok
    split at ok
    next hall => exact ⟨theorems, List.all_eq_true.1 hall, Except.ok.inj ok⟩
    next =>
      obtain ⟨new, hnew, ok⟩ := bind_eq_ok.1 ok
      exact ⟨new, fun s hs => homed_of_mapM hnew hs, Except.ok.inj ok⟩
  refine ⟨fun s hs => ?_, kept.same, kept.bound, fun hzero => absurd hzero (Nat.succ_ne_zero _)⟩
  rcases mem_statements.1 hs with hs | ⟨b, hb, hs⟩
  · exact kept.own s (mem_statements.2 (.inl hs))
  · rcases List.mem_append.1 hb with hb | hb
    · exact kept.own s (mem_statements.2 (.inr ⟨b, hb, hs⟩))
    · obtain rfl := List.mem_singleton.1 hb
      exact hnew s hs

theorem IsKept.reduced {handle : Nat} (kept : k.IsKept) (ok : k.reduced handle = .ok k') :
    k'.IsKept := by
  obtain ⟨_, _, ok⟩ := bind_eq_ok.1 ok
  obtain rfl := Except.ok.inj ok
  refine ⟨fun s hs => ?_, kept.same, kept.bound, fun hzero => ?_⟩
  · rcases mem_statements.1 hs with hs | ⟨b, hb, hs⟩
    · exact kept.own s (mem_statements.2 (.inl hs))
    · exact kept.own s (mem_statements.2 (.inr ⟨b, (List.mem_filter.1 hb).1, hs⟩))
  · obtain ⟨hbatches, hrules⟩ := kept.untouched hzero
    exact ⟨List.filter_eq_nil_iff.2 fun b hb => by simp [hbatches] at hb, hrules⟩

/-- In the larger context all statements are about this context. -/
theorem own_of_redefined {label : Nat} {name : String} {arity : Nat}
    (ok : k.redefined label name arity = .ok k') :
    (∀ s ∈ k'.statements, s.ctx.same k'.ctx = true) ∧ (k.batches = [] → k'.batches = []) ∧
      k'.nextHandle = k.nextHandle := by
  obtain ⟨_, _, ok⟩ := bind_eq_ok.1 ok
  split at ok
  next reason => cases ok
  next ctx _ =>
    obtain ⟨axioms, haxioms, ok⟩ := bind_eq_ok.1 ok
    obtain ⟨batches, hbatches, ok⟩ := bind_eq_ok.1 ok
    obtain rfl := Except.ok.inj ok
    refine ⟨fun s hs => ?_, fun hnone => ?_, rfl⟩
    · rcases mem_statements.1 hs with hs | ⟨b, hb, hs⟩
      · exact homed_of_mapM haxioms hs
      · obtain ⟨b₀, _, hb₀⟩ := mem_of_mapM_ok hbatches hb
        obtain ⟨theorems, htheorems, hb₀⟩ := bind_eq_ok.1 hb₀
        obtain rfl := Except.ok.inj hb₀
        exact homed_of_mapM htheorems hs
    · rw [hnone] at hbatches
      exact (Except.ok.inj hbatches).symm

theorem IsKept.define {label : Nat} {name : String} {arity : Nat} (kept : k.IsKept)
    (run : (define label name arity).on k = (.ok (), k')) : k'.IsKept := by
  have houtcome := outcome_define label name arity k
  rw [run] at houtcome
  cases houtcome with
  | done ok rebuilt =>
    obtain ⟨own, hbatches, hhandle⟩ := own_of_redefined ok
    refine isKept_of_rebuilt own (fun hnew => hbatches ?_) rebuilt
    exact (kept.untouched (hhandle ▸ hnew)).1

theorem exists_of_mem_number {axioms : List Statement} {n : Nat} {s : Statement}
    (hs : s ∈ ((axioms.mapM Statement.number).run n).1) :
    ∃ s₀ ∈ axioms, s.ctx = s₀.ctx ∧ s.freeIds = s₀.freeIds := by
  obtain ⟨s₀, hs₀, m, rfl⟩ := mem_of_mapM_run hs
  exact ⟨s₀, hs₀, rfl, rfl⟩

theorem map_equation_number (axioms : List Statement) (n : Nat) :
    ((axioms.mapM Statement.number).run n).1.map Statement.equation =
      axioms.map Statement.equation := by
  induction axioms generalizing n with
  | nil => rfl
  | cons s axioms ih =>
    rw [List.mapM_cons, StateT.run_bind]
    show s.equation :: (((axioms.mapM Statement.number).run _).1.map Statement.equation) = _
    rw [ih]
    rfl

theorem IsKept.number (kept : k.IsKept) (n : Nat) : (k.number.run n).1.IsKept := by
  have hnumbered : (k.number.run n).1 =
      { k with
        axioms := ((k.axioms.mapM Statement.number).run n).1
        rules :=
          if k.nextHandle = 0 then
            ((k.axioms.mapM Statement.number).run n).1.map .ofStatement
          else k.rules } := rfl
  have hown : ∀ s ∈ ((k.axioms.mapM Statement.number).run n).1, s.ctx.same k.ctx = true := by
    intro s hs
    obtain ⟨s₀, hs₀, hctx, -⟩ := exists_of_mem_number hs
    rw [hctx]
    exact kept.own s₀ (mem_statements.2 (.inl hs₀))
  rw [hnumbered]
  refine ⟨fun s hs => ?_, ?_, ?_, fun hzero => ⟨(kept.untouched hzero).1, if_pos hzero⟩⟩
  · rcases mem_statements.1 hs with hs | hs
    · exact hown s hs
    · exact kept.own s (mem_statements.2 (.inr hs))
  · intro rule hrule
    dsimp only at hrule
    split at hrule
    next =>
      obtain ⟨s, hs, rfl⟩ := List.mem_map.1 hrule
      exact hown s hs
    next => exact kept.same rule hrule
  · dsimp only
    split
    next hzero =>
      have hbound := kept.bound
      rw [(kept.untouched hzero).2, map_statement_ofStatement] at hbound
      obtain ⟨each, hword, heq⟩ := boundOf_eq_ok_iff.1 hbound
      rw [map_statement_ofStatement, boundOf_eq_ok_iff, leastAbove_congr (map_equation_number _ n)]
      refine ⟨fun s hs => ?_, hword, heq⟩
      obtain ⟨s₀, hs₀, -, hids⟩ := exists_of_mem_number hs
      rw [hids]
      exact each s₀ hs₀
    next => exact kept.bound

theorem ofAxioms_eq_ok_iff {ctx : Context} {options : KernelOptions} {axioms : List Statement} :
    ofAxioms ctx options axioms = .ok k ↔
      (axioms.allM fun s => s.isTyped ctx.signature) = .ok true ∧
        Kernel.rebuilt { ctx, options, axioms, rng := ⟨options.seed⟩ } = .ok k := by
  rw [ofAxioms, bind_eq_ok]
  constructor
  · rintro ⟨valid, hvalid, ok⟩
    obtain ⟨_, hrequire, ok⟩ := bind_eq_ok.1 ok
    obtain rfl := require_eq_ok.1 hrequire
    exact ⟨hvalid, ok⟩
  · rintro ⟨hvalid, ok⟩
    exact ⟨true, hvalid, ok⟩

theorem exists_of_read {ctx : Context} {options : KernelOptions} (ok : read ctx options = .ok k) :
    ∃ axioms, Statement.readSource ctx ("\n".intercalate ctx.axioms) = .ok axioms ∧
      ofAxioms ctx options axioms = .ok k := by
  obtain ⟨axioms, haxioms, ok⟩ := bind_eq_ok.1 ok
  refine ⟨axioms, ?_, ?_⟩
  · cases hsource : Statement.readSource ctx ("\n".intercalate ctx.axioms) with
    | error error =>
      rw [hsource] at haxioms
      cases haxioms
    | ok read =>
      rw [hsource] at haxioms
      cases haxioms
      rfl
  · cases hbuilt : ofAxioms ctx options axioms with
    | error cause =>
      rw [hbuilt] at ok
      cases ok
    | ok built =>
      rw [hbuilt] at ok
      cases ok
      rfl

theorem isKept_of_read {ctx : Context} {options : KernelOptions} (ok : read ctx options = .ok k) :
    k.IsKept := by
  obtain ⟨axioms, hread, hbuilt⟩ := exists_of_read ok
  obtain ⟨-, hrebuilt⟩ := ofAxioms_eq_ok_iff.1 hbuilt
  refine isKept_of_rebuilt (fun s hs => ?_) (fun _ => rfl) hrebuilt
  rcases mem_statements.1 hs with hs | ⟨b, hb, _⟩
  · rw [Statement.ctx_of_mem_readSource hread hs]
    exact same_self _
  · cases hb

theorem Built.kept (built : k.Built) : k.IsKept := by
  induction built with
  | read ok => exact isKept_of_read ok
  | @add k k' theorems result _ run ih =>
    exact ih.of_outcome (run ▸ outcome_add theorems k) fun _ ok => ih.extended ok
  | @remove k k' handle result _ run ih =>
    exact ih.of_outcome (run ▸ outcome_remove handle k) fun _ ok => ih.reduced ok
  | define _ run ih => exact ih.define run
  | reseed _ _ ih => exact ⟨ih.own, ih.same, ih.bound, ih.untouched⟩
  | number _ n ih => exact ih.number n

theorem equations_eq (k : Kernel) :
    k.equations = (k.rules.map Rule.statement).map Statement.equation := by
  rw [equations, List.map_map]
  exact List.map_congr_left fun rule _ => rule.equation_eq

theorem isLeast_bound (ok : boundOf (k.rules.map Rule.statement) = .ok k.bound) :
    IsLeast {n | ∀ e ∈ k.equations, ∀ id ∈ e.vars, id < n} k.bound := by
  obtain ⟨-, -, heq⟩ := boundOf_eq_ok_iff.1 ok
  rw [heq, equations_eq]
  simpa only [List.forall_mem_map] using isLeast_leastAbove (k.rules.map Rule.statement)

theorem IsKept.bound_congr (kept : k.IsKept) (kept' : k'.IsKept)
    (hrules : k.equations = k'.equations) : k.bound = k'.bound :=
  (isLeast_bound kept.bound).unique (hrules ▸ isLeast_bound kept'.bound)

theorem IsKept.homed (kept : k.IsKept) : k.IsHomed := ⟨kept.same, (isLeast_bound kept.bound).1⟩

theorem Built.homed (built : k.Built) : k.IsHomed := built.kept.homed

/-- The variables of the rules in use were collected, so no records lead in a circle. -/
theorem Built.denotes (built : k.Built) {rule : Rule} (hrule : rule ∈ k.rules) :
    rule.statement.Denotes rule.equation := by
  obtain ⟨each, -⟩ := boundOf_eq_ok_iff.1 built.kept.bound
  obtain ⟨ids, hids⟩ := each rule.statement (List.mem_map_of_mem hrule)
  rw [rule.equation_eq]
  exact Statement.denotes_of_freeIds hids

/-! ### Trivial equations -/

/-- An equation is trivial if both sides are the same, or it is an instance of a rule in one of the
orientations. -/
theorem isTrivial_iff {e : Equation} :
    k.isTrivial e = true ↔ e.lhs = e.rhs ∨
      ∃ rule ∈ k.equations, ∃ σ, rule.bind σ = e ∨ rule.bind σ = e.transpose := by
  have hrules : (∃ rule ∈ k.rules, rule.equation.implies e = true) ↔
      ∃ rule ∈ k.equations, ∃ σ, rule.bind σ = e ∨ rule.bind σ = e.transpose := by
    constructor
    · rintro ⟨rule, hrule, himplies⟩
      exact ⟨rule.equation, List.mem_map.2 ⟨rule, hrule, rfl⟩, Equation.implies_iff.1 himplies⟩
    · rintro ⟨_, hmem, hinstance⟩
      obtain ⟨rule, hrule, rfl⟩ := List.mem_map.1 hmem
      exact ⟨rule, hrule, Equation.implies_iff.2 hinstance⟩
  rw [isTrivial, Equation.isTrivialIn, Bool.or_eq_true, List.any_eq_true, hrules,
    Equation.isReflexive, beq_iff_eq]

/-! ### Reading the axioms -/

theorem read_eq_ok {ctx : Context} {axioms : List Statement} {bound : Nat} (options : KernelOptions)
    (hread : (Statement.readSource ctx ("\n".intercalate ctx.axioms)).toOption = some axioms)
    (hvalid : (axioms.allM (Statement.isTyped ctx.signature)).toOption = some true)
    (hbound : (boundOf axioms).toOption = some bound) :
    read ctx options =
      .ok
        { ctx, options, axioms, rules := axioms.map .ofStatement, bound,
          rng := ⟨options.seed⟩ } := by
  have hstatements : (Kernel.statements { ctx, options, axioms, rng := ⟨options.seed⟩ }) = axioms :=
    List.append_nil axioms
  rw [read, toOption_eq_some.1 hread]
  show (ofAxioms ctx options axioms).mapError KernelError.violated = _
  rw [ofAxioms]
  show ((axioms.allM (Statement.isTyped ctx.signature)) >>= _).mapError KernelError.violated = _
  rw [toOption_eq_some.1 hvalid]
  show (rebuilt _).mapError KernelError.violated = _
  rw [rebuilt, hstatements, toOption_eq_some.1 hbound]
  rfl

end Kernel

/-! ### A kernel with one axiom -/

/-- One function symbol, which undoes itself. -/
def Context.involution : Context :=
  { name := "involution", signature := ⟨[⟨"i", 1⟩]⟩, axioms := ["i(i(x)) = x"], label := 0 }

def Statement.involution : Statement :=
  .ofEquation .involution ⟨.app 0 [.app 0 [.var 0]], .var 0⟩

def Kernel.involution (options : KernelOptions) : Kernel :=
  { ctx := .involution
    options
    axioms := [.involution]
    rules := [.ofStatement .involution]
    bound := 1
    rng := ⟨options.seed⟩ }

theorem Kernel.read_involution (options : KernelOptions) :
    Kernel.read .involution options = .ok (.involution options) :=
  read_eq_ok options (by decide +kernel) (by decide +kernel) (by decide +kernel)

theorem Kernel.built_involution (options : KernelOptions) : (Kernel.involution options).Built :=
  .read (read_involution options)

/-! ### A kernel with a constant -/

/-- A product that does not depend on its left factor. -/
def Context.leftBlind : Context :=
  { name := "left blind"
    signature := ⟨[⟨"*", 2⟩, ⟨"i", 1⟩, ⟨"e", 0⟩]⟩
    axioms := ["*(x, y) = i(y)"]
    label := 0 }

def Statement.leftBlind : Statement :=
  .ofEquation .leftBlind ⟨.app 0 [.var 0, .var 1], .app 1 [.var 1]⟩

def Kernel.leftBlind (options : KernelOptions) : Kernel :=
  { ctx := .leftBlind
    options
    axioms := [.leftBlind]
    rules := [.ofStatement .leftBlind]
    bound := 2
    rng := ⟨options.seed⟩ }

/-- Read from right to left the axiom leaves its first variable open. -/
theorem Kernel.built_leftBlind (options : KernelOptions) : (Kernel.leftBlind options).Built :=
  .read (read_eq_ok options (by decide +kernel) (by decide +kernel) (by decide +kernel))

end Equational
