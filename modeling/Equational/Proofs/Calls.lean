import Equational.Proofs.Layout
import Equational.Proofs.Recursion

/-!
# Which handlers a reduction calls

A reduction gives every node of a term a value. `ValuedTerm` is a term with these values, and its
calls are what a plain recursion would ask of the handlers: for each node one call, arguments first.
A reduction makes these calls in this order, but for a leaf only the first one (`Call.firstCalls`),
since it keeps the values of leaves. So the result is that of the plain recursion if the value of a
leaf depends on nothing but the leaf (`Term.reduce_eq_recurse`), and in general every call can be
told from the term (`Expression.fold_is_catamorphism`).
-/

namespace Equational

/-! ### Terms with values -/

/-- A term with a value at each node. -/
inductive ValuedTerm (α : Type) where
  | var (id : Nat) (value : α)
  | const (symbol : Nat) (value : α)
  | app (symbol : Nat) (args : List (ValuedTerm α)) (value : α)

/-- What a handler was asked, and what it gave. -/
inductive Call (α : Type) where
  | free (id : Nat) (value : α)
  | const (symbol : Nat) (value : α)
  | func (symbol : Nat) (args : List α) (value : α)
  deriving DecidableEq, Repr

namespace ValuedTerm

variable {α : Type}

def value : ValuedTerm α → α
  | var _ value | const _ value | app _ _ value => value

mutual
def term : ValuedTerm α → Term
  | var id _ => .var id
  | const symbol _ => .const symbol
  | app symbol args _ => .app symbol (terms args)
def terms : List (ValuedTerm α) → List Term
  | [] => []
  | w :: ws => w.term :: terms ws
end

mutual
/-- A call for each node, arguments before the application that has them. -/
def calls : ValuedTerm α → List (Call α)
  | var id value => [.free id value]
  | const symbol value => [.const symbol value]
  | app symbol args value => callsArgs args ++ [.func symbol (args.map ValuedTerm.value) value]
def callsArgs : List (ValuedTerm α) → List (Call α)
  | [] => []
  | w :: ws => w.calls ++ callsArgs ws
end

end ValuedTerm

namespace Call

variable {α : Type}

def value : Call α → α
  | free _ value | const _ value | func _ _ value => value

/-- The leaf whose value was asked for. -/
def leaf? : Call α → Option Node
  | free id _ => some (.free id)
  | const symbol _ => some (.const symbol)
  | func .. => none

/-- The symbol of the application whose value was asked for. -/
def symbol? : Call α → Option Nat
  | func symbol _ _ => some symbol
  | _ => none

/-- The leaves of a list of calls. -/
def leaves (calls : List (Call α)) : List Node := calls.filterMap leaf?

/-- The calls that are left if none is made for a leaf a second time, and none for a leaf that was
seen before. -/
def firstCalls (seen : Finset Node) : List (Call α) → List (Call α)
  | [] => []
  | call :: calls =>
    match call.leaf? with
    | some leaf =>
      if leaf ∈ seen then firstCalls seen calls else call :: firstCalls (insert leaf seen) calls
    | none => call :: firstCalls seen calls

theorem firstCalls_append (seen : Finset Node) (calls calls' : List (Call α)) :
    firstCalls seen (calls ++ calls') =
      firstCalls seen calls ++ firstCalls (seen ∪ (leaves calls).toFinset) calls' := by
  induction calls generalizing seen with
  | nil => simp [firstCalls, leaves]
  | cons call calls ih =>
    cases hleaf : call.leaf? with
    | none => simp [firstCalls, leaves, hleaf, ih]
    | some leaf =>
      have hunion : seen ∪ (leaves (call :: calls)).toFinset =
          insert leaf seen ∪ (leaves calls).toFinset := by
        simp [leaves, hleaf, Finset.union_insert, Finset.insert_union]
      by_cases hmem : leaf ∈ seen
      · rw [Finset.insert_eq_of_mem hmem] at hunion
        simp only [List.cons_append, firstCalls, hleaf, hmem, if_true, ih, hunion]
      · simp only [List.cons_append, firstCalls, hleaf, hmem, if_false, ih, hunion]

theorem symbol?_of_leaf? {call : Call α} {leaf : Node} (hleaf : call.leaf? = some leaf) :
    call.symbol? = none := by
  cases call with
  | func symbol args value => simp [leaf?] at hleaf
  | _ => rfl

theorem symbols_firstCalls (seen : Finset Node) (calls : List (Call α)) :
    (firstCalls seen calls).filterMap symbol? = calls.filterMap symbol? := by
  induction calls generalizing seen with
  | nil => rfl
  | cons call calls ih =>
    cases hleaf : call.leaf? with
    | none => simp [firstCalls, hleaf, List.filterMap_cons, ih]
    | some leaf =>
      have hsymbol := symbol?_of_leaf? hleaf
      by_cases hmem : leaf ∈ seen
      · simp [firstCalls, hleaf, hmem, hsymbol, ih]
      · simp [firstCalls, hleaf, hmem, hsymbol, ih]

/-- Calls for leaves are made once each, in the order in which the leaves are met first. -/
theorem leaves_firstCalls (seen : Finset Node) (calls : List (Call α)) :
    leaves (firstCalls seen calls) =
      ((leaves calls).filter fun leaf => leaf ∉ seen).eraseDups := by
  induction calls generalizing seen with
  | nil => rfl
  | cons call calls ih =>
    cases hleaf : call.leaf? with
    | none => simpa [firstCalls, leaves, hleaf] using ih seen
    | some leaf =>
      by_cases hmem : leaf ∈ seen
      · simpa [firstCalls, leaves, hleaf, hmem] using ih seen
      · have hih := ih (insert leaf seen)
        simp only [leaves] at hih
        simp [firstCalls, leaves, hleaf, hmem, hih, List.eraseDups_cons, List.filter_filter,
          beq_eq_decide]

end Call

namespace Term

/-- The node of a term that is a leaf. -/
def leaf? : Term → Option Node
  | .var id => some (.free id)
  | .const symbol => some (.const symbol)
  | .app .. => none

/-- The symbol of a term that is an application. -/
def symbol? : Term → Option Nat
  | .app symbol _ => some symbol
  | _ => none

end Term

namespace ValuedTerm

variable {α : Type}

mutual
/-- The calls for applications come in the order of applications, each after those below it. -/
theorem symbols_calls (w : ValuedTerm α) :
    w.calls.filterMap Call.symbol? = w.term.applications.filterMap fun o => o.term.symbol? := by
  cases w with
  | var id value => rfl
  | const symbol value => rfl
  | app symbol args value =>
    simp [calls, term, Term.applications, Call.symbol?, Term.symbol?, symbols_callsArgs args 0]
theorem symbols_callsArgs (ws : List (ValuedTerm α)) (n : Nat) :
    (callsArgs ws).filterMap Call.symbol? =
      (Term.applicationsArgs n (terms ws)).filterMap fun o => o.term.symbol? := by
  cases ws with
  | nil => rfl
  | cons w ws =>
    simp [callsArgs, terms, Term.applicationsArgs, symbols_calls w, symbols_callsArgs ws (n + 1),
      List.filterMap_map, Function.comp_def, Occurrence.below]
end

mutual
/-- The calls for leaves come in the order of occurrences. -/
theorem leaves_calls (w : ValuedTerm α) :
    Call.leaves w.calls = w.term.occurrences.filterMap fun o => o.term.leaf? := by
  cases w with
  | var id value => rfl
  | const symbol value => rfl
  | app symbol args value =>
    have hargs := leaves_callsArgs args 0
    simp only [Call.leaves] at hargs
    simp [Call.leaves, calls, term, Term.occurrences, Call.leaf?, Term.leaf?, hargs]
theorem leaves_callsArgs (ws : List (ValuedTerm α)) (n : Nat) :
    Call.leaves (callsArgs ws) =
      (Term.occurrencesArgs n (terms ws)).filterMap fun o => o.term.leaf? := by
  cases ws with
  | nil => rfl
  | cons w ws =>
    have hfirst := leaves_calls w
    have hrest := leaves_callsArgs ws (n + 1)
    simp only [Call.leaves] at hfirst hrest
    simp [Call.leaves, callsArgs, terms, Term.occurrencesArgs, hfirst, hrest,
      List.filterMap_map, Function.comp_def, Occurrence.below]
end

/-- A leaf has the same value wherever it occurs. -/
def Uniform (w : ValuedTerm α) : Prop :=
  ∀ call ∈ w.calls, ∀ call' ∈ w.calls, ∀ leaf, call.leaf? = some leaf → call'.leaf? = some leaf →
    call.value = call'.value

end ValuedTerm

/-! ### Handlers that make notes -/

namespace Term

variable {σ α β : Type}

/-- Makes a note of what a handler was asked and of what it gave. -/
def noting (call : α → Call α) (handler : StateM σ α) : StateM (σ × List (Call α)) α := do
  let (s, log) ← get
  let (value, s') := handler.run s
  set (s', log ++ [call value])
  pure value

/-- The same handlers, with a note of each call. -/
def Reduction.noted (r : Reduction (StateM σ) α) : Reduction (StateM (σ × List (Call α))) α where
  free id := noting (.free id) (r.free id)
  const symbol := noting (.const symbol) (r.const symbol)
  func symbol args := noting (.func symbol args) (r.func symbol args)

/-- A run without and with notes: it gives `result` and notes the first calls of a list. Afterwards
values are kept for the leaves of these calls, and for those that had one before. -/
structure Performs (plain : StateT (Leaves α) (StateM σ) β)
    (noted : StateT (Leaves α) (StateM (σ × List (Call α))) β) (before : Leaves α) (s : σ)
    (result : β) (calls : List (Call α)) (after : Leaves α) (s' : σ) : Prop where
  run_plain : (plain.run before).run s = ((result, after), s')
  run_noted : ∀ log, (noted.run before).run (s, log) =
    ((result, after), (s', log ++ Call.firstCalls before.nodes calls))
  keeps : ∀ leaf value, before.value? leaf = some value → after.value? leaf = some value
  nodes_after : after.nodes = before.nodes ∪ (Call.leaves calls).toFinset
  known : ∀ call ∈ calls, ∀ leaf, call.leaf? = some leaf → after.value? leaf = some call.value

variable {plain : StateT (Leaves α) (StateM σ) β}
  {noted : StateT (Leaves α) (StateM (σ × List (Call α))) β} {before after after' : Leaves α}
  {s s' s'' : σ} {result : β} {calls calls' : List (Call α)}

theorem performs_pure (before : Leaves α) (s : σ) (result : β) :
    Performs (pure result) (pure result) before s result [] before s where
  run_plain := rfl
  run_noted log := by
    rw [Call.firstCalls, List.append_nil]
    rfl
  keeps _ _ h := h
  nodes_after := by simp [Call.leaves]
  known _ h := absurd h List.not_mem_nil

/-- One run after another: what is known after the first one is not asked for in the second. -/
theorem Performs.bind {γ : Type} {next : β → StateT (Leaves α) (StateM σ) γ}
    {nextNoted : β → StateT (Leaves α) (StateM (σ × List (Call α))) γ} {last : γ}
    (first : Performs plain noted before s result calls after s')
    (second : Performs (next result) (nextNoted result) after s' last calls' after' s'') :
    Performs (plain >>= next) (noted >>= nextNoted) before s last (calls ++ calls') after' s'' where
  run_plain := by
    rw [StateT.run_bind, StateT.run_bind, first.run_plain]
    exact second.run_plain
  run_noted log := by
    rw [StateT.run_bind, StateT.run_bind, first.run_noted, Call.firstCalls_append,
      ← first.nodes_after, ← List.append_assoc]
    exact second.run_noted _
  keeps leaf value h := second.keeps leaf value (first.keeps leaf value h)
  nodes_after := by
    simp [second.nodes_after, first.nodes_after, Call.leaves, List.toFinset_append,
      Finset.union_assoc]
  known call hmem leaf hleaf := by
    rcases List.mem_append.1 hmem with hmem | hmem
    · exact second.keeps leaf _ (first.known call hmem leaf hleaf)
    · exact second.known call hmem leaf hleaf

theorem Performs.bind_pure {γ : Type} (f : β → γ)
    (h : Performs plain noted before s result calls after s') :
    Performs (plain >>= fun x => pure (f x)) (noted >>= fun x => pure (f x)) before s (f result)
      calls after s' where
  run_plain := by
    rw [StateT.run_bind, StateT.run_bind, h.run_plain]
    rfl
  run_noted log := by
    rw [StateT.run_bind, StateT.run_bind, h.run_noted]
    rfl
  keeps := h.keeps
  nodes_after := h.nodes_after
  known := h.known

theorem performs_func (r : Reduction (StateM σ) α) (symbol : Nat) (args : List α)
    (before : Leaves α) (s : σ) :
    Performs (liftM (r.func symbol args)) (liftM (r.noted.func symbol args)) before s
      ((r.func symbol args).run s).1
      [.func symbol args ((r.func symbol args).run s).1] before ((r.func symbol args).run s).2 where
  run_plain := rfl
  run_noted log := rfl
  keeps _ _ h := h
  nodes_after := by simp [Call.leaves, Call.leaf?, List.filterMap_cons]
  known call hmem leaf hleaf := by
    obtain rfl := List.mem_singleton.1 hmem
    simp [Call.leaf?] at hleaf

section AskLeaf

variable {leaf : Node} {call : α → Call α} (hleaf : ∀ value, (call value).leaf? = some leaf)
  (hvalue : ∀ value, (call value).value = value)

include hleaf hvalue

/-- The value of a leaf is right for the call, once it is kept. -/
theorem known_of_kept {value : α} (kept : after.value? leaf = some value) :
    ∀ c ∈ [call value], ∀ other, c.leaf? = some other → after.value? other = some c.value := by
  intro c hc other hother
  obtain rfl := List.mem_singleton.1 hc
  obtain rfl : leaf = other := by simpa [hleaf] using hother
  rw [kept, hvalue]

theorem performs_askLeaf_of_some {value : α} (kept : before.value? leaf = some value)
    (handler : StateM σ α) (s : σ) :
    Performs (askLeaf leaf handler) (askLeaf leaf (noting call handler)) before s value [call value]
      before s := by
  have hmem : leaf ∈ before.nodes := by simp [Leaves.mem_nodes, kept]
  have hfirst : Call.firstCalls before.nodes [call value] = [] := by
    simp [Call.firstCalls, hleaf, hmem]
  refine ⟨?_, fun log => ?_, fun _ _ h => h, ?_, known_of_kept hleaf hvalue kept⟩
  · rw [run_askLeaf_of_some kept]
    rfl
  · rw [run_askLeaf_of_some kept, hfirst, List.append_nil]
    rfl
  · simp [Call.leaves, hleaf, hmem]

theorem performs_askLeaf_of_none (isLeaf : leaf.kind ≠ .func) (new : before.value? leaf = none)
    (handler : StateM σ α) (s : σ) :
    Performs (askLeaf leaf handler) (askLeaf leaf (noting call handler)) before s (handler.run s).1
      [call (handler.run s).1] (before.learn (handler.run s).1 leaf) (handler.run s).2 := by
  have hmem : leaf ∉ before.nodes := by simp [Leaves.mem_nodes, new]
  have hfirst (value : α) : Call.firstCalls before.nodes [call value] = [call value] := by
    simp [Call.firstCalls, hleaf, hmem]
  have hlearn := Leaves.value?_learn before (handler.run s).1 isLeaf
  refine ⟨?_, fun log => ?_, fun other value hother => ?_, ?_, known_of_kept hleaf hvalue ?_⟩
  · rw [run_askLeaf_of_none new]
    rfl
  · rw [run_askLeaf_of_none new, hfirst]
    rfl
  · have hne : other ≠ leaf := by
      rintro rfl
      rw [new] at hother
      cases hother
    rw [hlearn, if_neg hne, hother]
  · rw [Leaves.nodes_learn before _ isLeaf]
    simp [Call.leaves, hleaf]
  · rw [hlearn, if_pos rfl]

theorem exists_performs_askLeaf (isLeaf : leaf.kind ≠ .func) (handler : StateM σ α)
    (before : Leaves α) (s : σ) :
    ∃ value after s', Performs (askLeaf leaf handler) (askLeaf leaf (noting call handler)) before s
      value [call value] after s' := by
  cases hkept : before.value? leaf with
  | some value => exact ⟨_, _, _, performs_askLeaf_of_some hleaf hvalue hkept handler s⟩
  | none => exact ⟨_, _, _, performs_askLeaf_of_none hleaf hvalue isLeaf hkept handler s⟩

end AskLeaf

theorem exists_performs_reduceArgs {r : Reduction (StateM σ) α} {ts : List Term}
    (each : ∀ t ∈ ts, ∀ (before : Leaves α) (s : σ), ∃ w : ValuedTerm α, w.term = t ∧ ∃ after s',
      Performs (t.reduceWith r) (t.reduceWith r.noted) before s w.value w.calls after s')
    (before : Leaves α) (s : σ) :
    ∃ ws : List (ValuedTerm α), ValuedTerm.terms ws = ts ∧ ∃ after s',
      Performs (reduceArgs r ts) (reduceArgs r.noted ts) before s (ws.map ValuedTerm.value)
        (ValuedTerm.callsArgs ws) after s' := by
  induction ts generalizing before s with
  | nil => exact ⟨[], rfl, before, s, performs_pure before s []⟩
  | cons t ts ih =>
    obtain ⟨w, hw, after₁, s₁, hfirst⟩ := each t List.mem_cons_self before s
    obtain ⟨ws, hws, after, s', hrest⟩ :=
      ih (fun t' ht' => each t' (List.mem_cons_of_mem t ht')) after₁ s₁
    refine ⟨w :: ws, by rw [ValuedTerm.terms, hw, hws], after, s', ?_⟩
    exact hfirst.bind (hrest.bind_pure fun values => w.value :: values)

/-- **The calls of a reduction** are those of a term with values, each leaf once. -/
theorem exists_performs_reduceWith (r : Reduction (StateM σ) α) (t : Term) (before : Leaves α)
    (s : σ) :
    ∃ w : ValuedTerm α, w.term = t ∧ ∃ after s',
      Performs (t.reduceWith r) (t.reduceWith r.noted) before s w.value w.calls after s' := by
  induction t generalizing before s with
  | var id =>
    have hcall (value : α) : (Call.free id value).leaf? = some (.free id) := rfl
    obtain ⟨value, after, s', h⟩ := exists_performs_askLeaf hcall (fun _ => rfl)
      (by simp [Node.kind]) (r.free id) before s
    exact ⟨.var id value, rfl, after, s', h⟩
  | const symbol =>
    have hcall (value : α) : (Call.const symbol value).leaf? = some (.const symbol) := rfl
    obtain ⟨value, after, s', h⟩ := exists_performs_askLeaf hcall (fun _ => rfl)
      (by simp [Node.kind]) (r.const symbol) before s
    exact ⟨.const symbol value, rfl, after, s', h⟩
  | app symbol args ih =>
    obtain ⟨ws, hws, after, s', hrun⟩ := exists_performs_reduceArgs ih before s
    have hfunc := performs_func r symbol (ws.map ValuedTerm.value) after s'
    exact ⟨.app symbol ws _, by rw [ValuedTerm.term, hws], after, _, hrun.bind hfunc⟩

end Term

namespace Expression

open TermGraph

variable {e : Expression}

/-- **Reducing an expression is the bottom-up recursion.** For an expression without circles,
whatever other records its table has, whose variables fit into one row, the walk ends within as many
tasks as the term has visits and no task fails. If the value of a leaf depends on the leaf alone,
the result is that of the plain recursion. For handlers with a state there is a term with values,
one for each leaf, such that the handlers are called as in its post-order, for each leaf only once:
each application is asked for with the values of its arguments, and each leaf where it occurs first
in pre-order. If the variables do not fit into one row then no walk succeeds. -/
theorem fold_is_catamorphism (acyclic : e.graph.IsAcyclic) :
    (DenseSet.FitRow e.term.vars →
      (∀ (m : Type → Type) [Monad m] [LawfulMonad m] (α : Type) (r : Term.Reduction m α),
        (∀ count, e.term.visits ≤ count →
          (foldWithin count r e.graph).run = Except.ok <$> e.term.reduce r) ∧
        (fold r e.graph).run = Except.ok <$> e.term.reduce r ∧
        ∀ values : Node → α, r.free = (fun id => pure (values (.free id))) →
          r.const = (fun symbol => pure (values (.const symbol))) →
            (fold r e.graph).run = Except.ok <$> e.term.recurse r) ∧
      ∀ (σ α : Type) (r : Term.Reduction (StateM σ) α) (s : σ),
        ∃ (w : ValuedTerm α) (s' : σ), w.term = e.term ∧ w.Uniform ∧
          (fold r e.graph).run.run s = (.ok w.value, s') ∧
          (fold r.noted e.graph).run.run (s, []) =
            (.ok w.value, (s', Call.firstCalls ∅ w.calls)) ∧
          (Call.firstCalls ∅ w.calls).filterMap Call.symbol? =
            (e.term.applications.filterMap fun o => o.term.symbol?) ∧
          (Call.firstCalls ∅ w.calls).filterMap Call.leaf? =
            (e.term.occurrences.filterMap fun o => o.term.leaf?).eraseDups) ∧
    ∀ (σ α : Type) (r : Term.Reduction (StateT σ Checked) α) (s : σ) (x : α × σ),
      foldFrom r e.graph s = .ok x → DenseSet.FitRow e.term.vars := by
  have stored : e.graph.Stores e.graph.root e.term := acyclic.stores_term
  refine ⟨fun fit => ?_, fun σ α r s x => fitRow_of_foldFrom stored⟩
  have hwithin {m : Type → Type} [Monad m] [LawfulMonad m] {α : Type} (r : Term.Reduction m α)
      {count : Nat} (enough : e.term.visits ≤ count) :
      (foldWithin count r e.graph).run = Except.ok <$> e.term.reduce r := by
    rw [foldWithin_eq stored fit enough]
    simp
  have hfold {m : Type → Type} [Monad m] [LawfulMonad m] {α : Type} (r : Term.Reduction m α) :
      (fold r e.graph).run = Except.ok <$> e.term.reduce r := hwithin r (Nat.le_refl _)
  refine ⟨fun m _ _ α r => ⟨fun count => hwithin r, hfold r, ?_⟩, ?_⟩
  · intro values hfree hconst
    have hsettled : ∀ id, Term.Settles (r.free id) := fun id => .inl ⟨_, congrFun hfree id⟩
    have hsettled' : ∀ symbol, Term.Settles (r.const symbol) :=
      fun symbol => .inl ⟨_, congrFun hconst symbol⟩
    rw [← Term.reduce_eq_recurse hsettled hsettled']
    exact hfold r
  · intro σ α r s
    obtain ⟨w, hterm, after, s', performs⟩ := Term.exists_performs_reduceWith r e.term {} s
    have hplain : (e.term.reduce r).run s = (w.value, s') := by
      rw [Term.reduce, StateT.run_bind, performs.run_plain]
      rfl
    have hnoted : (e.term.reduce r.noted).run (s, []) =
        (w.value, (s', Call.firstCalls ∅ w.calls)) := by
      rw [Term.reduce, StateT.run_bind, performs.run_noted]
      rfl
    refine ⟨w, s', hterm, ?_, ?_, ?_, ?_, ?_⟩
    · intro call hcall call' hcall' leaf hleaf hleaf'
      have hknown := performs.known call hcall leaf hleaf
      rw [performs.known call' hcall' leaf hleaf'] at hknown
      exact (Option.some_inj.1 hknown).symm
    · rw [hfold, StateT.run_map, hplain]
      rfl
    · rw [hfold, StateT.run_map, hnoted]
      rfl
    · rw [Call.symbols_firstCalls, w.symbols_calls, hterm]
    · have hleaves := Call.leaves_firstCalls ∅ w.calls
      rw [w.leaves_calls, hterm] at hleaves
      simpa [Call.leaves] using hleaves

/-- Handlers that number the calls, whatever is asked. -/
def numbering : Term.Reduction (StateM Nat) Nat where
  free _ := modifyGet fun n => (n, n + 1)
  const _ := modifyGet fun n => (n, n + 1)
  func _ _ := modifyGet fun n => (n, n + 1)

/-- In `f(g(x), g(x))` with one record for both arguments, the variable is asked for once and each
of the arguments by itself. -/
theorem fold_is_catamorphism_doubled :
    doubled.graph.IsAcyclic ∧
      (fold numbering.noted doubled.graph).run.run (0, []) =
        (.ok 3, (4, [.free 0 0, .func 1 [0] 1, .func 1 [0] 2, .func 0 [1, 2] 3])) := by
  refine ⟨isAcyclic_doubled, ?_⟩
  have fit : DenseSet.FitRow doubled.term.vars := DenseSet.fitRow_of_isNarrow (by decide)
  obtain ⟨-, hfold, -⟩ := ((fold_is_catamorphism isAcyclic_doubled).1 fit).1 _ _ numbering.noted
  rw [hfold]
  rfl

/-- In `f(x, y)`, where the variables are the first and the last one of all, both are asked for, but
the value of the second one cannot be kept. -/
theorem fold_is_catamorphism_not_apart :
    apart.graph.IsAcyclic ∧
      (fold numbering.noted apart.graph).run.run (0, []) =
        (.error .rowTooLong, (2, [.free 0 0, .free 18446744073709551615 1])) :=
  ⟨isAcyclic_apart, rfl⟩

end Expression

end Equational
