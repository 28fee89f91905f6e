import Equational.Line
import Equational.Proofs.Recursion
import Equational.Proofs.Substitution

/-!
# What the walks through a stored term find

The text of a term, its height and whether it is typed are defined by recursion on the term. The
walks find the same, if the variables of the term fit into one row, and otherwise fail. The
variables themselves are found exactly if they fit into one row (`TermGraph.freeIds_eq`), so
whatever has a set of variables can also be printed. Laying a term out anew gives the graph of the
term (`TermGraph.compact_eq`).
-/

namespace Equational

/-! ### Texts, heights and types of terms -/

namespace Term

mutual
def text (ctx : Context) : Term → Checked String
  | .var id => pure (variableText id)
  | .const symbol => ctx.nameOf symbol
  | .app symbol args => do
    let args ← textArgs ctx args
    let name ← ctx.nameOf symbol
    pure (applicationText name args)
def textArgs (ctx : Context) : List Term → Checked (List String)
  | [] => pure []
  | t :: ts => do
    let first ← t.text ctx
    let rest ← textArgs ctx ts
    pure (first :: rest)
end

mutual
def height : Term → Nat
  | .var _ | .const _ => 1
  | .app _ args => 1 + heightArgs args
def heightArgs : List Term → Nat
  | [] => 0
  | t :: ts => max t.height (heightArgs ts)
end

mutual
def isTyped (s : Signature) : Term → Bool
  | .var _ => true
  | .const symbol => s.declares symbol 0
  | .app symbol args => s.declares symbol args.length && areTyped s args
def areTyped (s : Signature) : List Term → Bool
  | [] => true
  | t :: ts => t.isTyped s && areTyped s ts
end

end Term

namespace Equation

def text (ctx : Context) (e : Equation) : Checked String := do
  let lhs ← e.lhs.text ctx
  let rhs ← e.rhs.text ctx
  pure (equalityText lhs rhs)

def height (e : Equation) : Nat := max e.lhs.height e.rhs.height

def isTyped (s : Signature) (e : Equation) : Bool := e.lhs.isTyped s && e.rhs.isTyped s

/-- The variables of each side fit into one row. -/
structure FitRows (e : Equation) : Prop where
  lhs : DenseSet.FitRow e.lhs.vars
  rhs : DenseSet.FitRow e.rhs.vars

theorem fitRows_of_isNarrow {e : Equation} (narrow : DenseMap.IsNarrow e.vars) : e.FitRows where
  lhs := DenseSet.fitRow_of_isNarrow (narrow.mono fun _ hid => mem_vars.2 (.inl hid))
  rhs := DenseSet.fitRow_of_isNarrow (narrow.mono fun _ hid => mem_vars.2 (.inr hid))

end Equation

namespace TermGraph

open Term (Settles)

/-! ### Handlers without a state -/

theorem settles_pure {m : Type → Type} [Monad m] {α : Type} (value : α) :
    Settles (pure value : m α) := .inl ⟨value, rfl⟩

/-- What only may fail can be asked again. -/
theorem settles_liftM {σ α : Type} (result : Checked α) :
    Settles (liftM result : StateT σ Checked α) := by
  cases result with
  | ok value => exact .inl ⟨value, rfl⟩
  | error cause => exact .inr fun _ _ _ => rfl

mutual
theorem recurse_printing (ctx : Context) (t : Term) :
    t.recurse (printing ctx) = liftM (t.text ctx) := by
  cases t with
  | var id => rfl
  | const symbol => rfl
  | app symbol args =>
    rw [Term.recurse, Term.text, recurseArgs_printing ctx args]
    simp [printing]
theorem recurseArgs_printing (ctx : Context) (ts : List Term) :
    Term.recurseArgs (printing ctx) ts = liftM (Term.textArgs ctx ts) := by
  cases ts with
  | nil => rfl
  | cons t ts =>
    rw [Term.recurseArgs, Term.textArgs, recurse_printing ctx t, recurseArgs_printing ctx ts]
    simp
end

mutual
theorem recurse_measuring (t : Term) : t.recurse measuring = pure t.height := by
  cases t with
  | var id => rfl
  | const symbol => rfl
  | app symbol args =>
    obtain ⟨heights, hheights, hmax⟩ := recurseArgs_measuring args
    rw [Term.recurse, hheights, pure_bind, Term.height, ← hmax]
    rfl
theorem recurseArgs_measuring (ts : List Term) :
    ∃ heights, Term.recurseArgs measuring ts = pure heights ∧
      heights.foldr max 0 = Term.heightArgs ts := by
  cases ts with
  | nil => exact ⟨[], rfl, rfl⟩
  | cons t ts =>
    obtain ⟨heights, hheights, hmax⟩ := recurseArgs_measuring ts
    refine ⟨t.height :: heights, ?_, ?_⟩
    · rw [Term.recurseArgs, recurse_measuring t, hheights]
      rfl
    · rw [List.foldr_cons, hmax, Term.heightArgs]
end

mutual
theorem recurse_typing (s : Signature) (t : Term) :
    t.recurse (typing s) = pure (t.isTyped s) := by
  cases t with
  | var id => rfl
  | const symbol => rfl
  | app symbol args =>
    obtain ⟨results, hresults, hlength, hall⟩ := recurseArgs_typing s args
    rw [Term.recurse, hresults, pure_bind, Term.isTyped, ← hlength, ← hall]
    rfl
theorem recurseArgs_typing (s : Signature) (ts : List Term) :
    ∃ results, Term.recurseArgs (typing s) ts = pure results ∧ results.length = ts.length ∧
      results.all id = Term.areTyped s ts := by
  cases ts with
  | nil => exact ⟨[], rfl, rfl, rfl⟩
  | cons t ts =>
    obtain ⟨results, hresults, hlength, hall⟩ := recurseArgs_typing s ts
    refine ⟨t.isTyped s :: results, ?_, ?_, ?_⟩
    · rw [Term.recurseArgs, recurse_typing s t, hresults]
      rfl
    · rw [List.length_cons, hlength, List.length_cons]
    · rw [List.all_cons, hall, Term.areTyped]
      rfl
end

/-! ### Walks that leave the table alone -/

variable {g : TermGraph} {t : Term}

section Walk

variable {σ α : Type} {r : Term.Reduction (StateT σ Checked) α} {result : Checked α}
  (hfree : ∀ id, Settles (r.free id)) (hconst : ∀ symbol, Settles (r.const symbol))
  (hresult : t.recurse r = liftM result)

include hfree hconst hresult

theorem walk_eq (stored : g.Stores g.root t) (fit : DenseSet.FitRow t.vars) (s : σ) :
    (do pure (← foldFrom r g s).1) = result := by
  rw [foldFrom_eq stored fit, Term.reduce_eq_recurse hfree hconst, hresult]
  cases result with
  | ok value => rfl
  | error cause => rfl

theorem walk_eq_ok_iff (stored : g.Stores g.root t) (s : σ) {value : α} :
    (do pure (← foldFrom r g s).1) = .ok value ↔
      DenseSet.FitRow t.vars ∧ result = .ok value := by
  constructor
  · intro ok
    obtain ⟨x, hwalk, -⟩ := bind_eq_ok.1 ok
    have fit := fitRow_of_foldFrom stored hwalk
    exact ⟨fit, (walk_eq hfree hconst hresult stored fit s).symm.trans ok⟩
  · rintro ⟨fit, ok⟩
    rw [walk_eq hfree hconst hresult stored fit s, ok]

end Walk

section Stored

variable (stored : g.Stores g.root t)

include stored

theorem text_eq_ok_iff (ctx : Context) {text : String} :
    g.text ctx = .ok text ↔ DenseSet.FitRow t.vars ∧ t.text ctx = .ok text :=
  walk_eq_ok_iff (fun _ => settles_pure _) (fun _ => settles_liftM _)
    (recurse_printing ctx t) stored
    ()

theorem height_eq_ok_iff {n : Nat} :
    g.height = .ok n ↔ DenseSet.FitRow t.vars ∧ t.height = n := by
  have h : g.height = .ok n ↔
      DenseSet.FitRow t.vars ∧ (.ok t.height : Checked Nat) = .ok n :=
    walk_eq_ok_iff (fun _ => settles_pure _) (fun _ => settles_pure _)
      (recurse_measuring t) stored ()
  rwa [Except.ok.injEq] at h

theorem isTyped_eq_ok_iff (s : Signature) {typed : Bool} :
    g.isTyped s = .ok typed ↔ DenseSet.FitRow t.vars ∧ t.isTyped s = typed := by
  have h : g.isTyped s = .ok typed ↔
      DenseSet.FitRow t.vars ∧ (.ok (t.isTyped s) : Checked Bool) = .ok typed :=
    walk_eq_ok_iff (fun _ => settles_pure _) (fun _ => settles_pure _)
      (recurse_typing s t) stored ()
  rwa [Except.ok.injEq] at h

end Stored

/-! ### The variables of a stored term -/

/-- The row of the values that are kept is the row of the set, so both have room for a variable or
neither has. -/
def Collects {β : Type}
    (run : StateT (LeafCache Unit) (ExceptT Violation (StateT DenseSet Checked)) β)
    (b : β) (ids : List Nat) : Prop :=
  ∀ d : LeafCache Unit, d.free.slots.size ≤ DenseMap.limit → ∃ const,
    (run.run d).run.run d.free =
      (fun row : DenseSet => (.ok (b, ⟨row, const⟩), row)) <$> DenseSet.addAll d.free ids

theorem collects_pure {β : Type} (b : β) : Collects (pure b) b [] := fun d _ => ⟨d.const, rfl⟩

theorem Collects.bind {β γ : Type}
    {run : StateT (LeafCache Unit) (ExceptT Violation (StateT DenseSet Checked)) β}
    {next : β → StateT (LeafCache Unit) (ExceptT Violation (StateT DenseSet Checked)) γ}
    {b : β} {c : γ} {ids ids' : List Nat} (first : Collects run b ids)
    (second : Collects (next b) c ids') : Collects (run >>= next) c (ids ++ ids') := by
  intro d short
  obtain ⟨const, hfirst⟩ := first d short
  rw [DenseSet.addAll_append, StateT.run_bind, ExceptT.run_bind, StateT.run_bind, hfirst]
  cases hrow : DenseSet.addAll d.free ids with
  | error cause => exact ⟨const, rfl⟩
  | ok row =>
    exact second ⟨row, const⟩ (DenseSet.size_le_of_addAll short hrow)

theorem run_free_collecting (id : Nat) (s : DenseSet) :
    (collecting.free id).run s =
      if s.sizeFor id ≤ DenseMap.limit then .ok ((), s.bound id ()) else .error .rowTooLong := by
  have hadd : (collecting.free id).run s = (fun p => ((), p.2)) <$> s.add id := by
    simp [collecting]
  rw [hadd, DenseSet.add_eq]
  split
  · rfl
  · rfl

/-- A handler that is lifted hands its state on. -/
theorem run_liftM_bind {σ α β : Type} (handler : StateT σ Checked α)
    (f : α → ExceptT Violation (StateT σ Checked) β) (s : σ) :
    (liftM handler >>= f).run.run s = (handler.run s >>= fun p => (f p.1).run.run p.2) := by
  rw [ExceptT.run_bind, StateT.run_bind]
  show (((Except.ok <$> handler : StateT σ Checked _).run s) >>= _) = _
  rw [StateT.run_map]
  cases handler.run s with
  | ok p => rfl
  | error cause => rfl

theorem collects_var (id : Nat) : Collects ((Term.var id).reduceRow collecting) () [id] := by
  intro d short
  refine ⟨d.const, ?_⟩
  rw [DenseSet.addAll_singleton]
  cases hfound : d.free.lookup id with
  | some value =>
    have hsize : d.free.sizeFor id ≤ DenseMap.limit := by
      rw [DenseMap.sizeFor_of_covers (DenseMap.covers_of_lookup hfound)]
      exact short
    rw [run_reduceRow_var_of_some hfound, if_pos hsize, DenseSet.bound_of_lookup hfound]
    rfl
  | none =>
    rw [run_reduceRow_var_of_none hfound, run_liftM_bind, run_free_collecting]
    split
    next fits => simp
    next => rfl

theorem collects_reduceRowArgs {ts : List Term}
    (each : ∀ t ∈ ts, Collects (t.reduceRow collecting) () t.vars) :
    ∃ units, Collects (Term.reduceRowArgs collecting ts) units (Term.varsArgs ts) := by
  induction ts with
  | nil => exact ⟨[], collects_pure []⟩
  | cons t ts ih =>
    obtain ⟨units, hrest⟩ := ih fun t' ht' => each t' (List.mem_cons_of_mem t ht')
    refine ⟨() :: units, (each t List.mem_cons_self).bind ?_⟩
    rw [← List.append_nil (Term.varsArgs ts)]
    exact hrest.bind (collects_pure _)

theorem collects_reduceRow (t : Term) : Collects (t.reduceRow collecting) () t.vars := by
  induction t with
  | var id => exact collects_var id
  | const symbol =>
    intro d short
    rw [run_reduceRow_const]
    split
    next => exact ⟨d.const, rfl⟩
    next => exact ⟨_, rfl⟩
  | app symbol args ih =>
    obtain ⟨units, hargs⟩ := collects_reduceRowArgs ih
    rw [Term.vars, ← List.append_nil (Term.varsArgs args)]
    exact hargs.bind fun d _ => ⟨d.const, rfl⟩

/-- **The variables of a stored term** are found if and only if they fit into one row. -/
theorem freeIds_eq (stored : g.Stores g.root t) : g.freeIds = DenseSet.ofIds t.vars := by
  have hterm : g.term = t := stored.termAt_eq
  cases hroot : g.root with
  | free id =>
    cases hroot ▸ stored
    have hfold : fold collecting g = liftM (collecting.free id) := by
      rw [fold, foldWithin, hroot]
    rw [freeIds, foldFrom, hfold, DenseSet.ofIds, Term.vars, DenseSet.addAll_singleton,
      ← bind_pure (liftM _), run_liftM_bind, run_free_collecting]
    split
    · rfl
    · rfl
  | const symbol =>
    cases hroot ▸ stored
    rw [freeIds, foldFrom, fold, foldWithin, hroot]
    rfl
  | func index =>
    obtain ⟨const, hruns⟩ := collects_reduceRow t {} (Nat.zero_le _)
    have hfold := foldWithin_eq_reduceRow (r := collecting) (hroot ▸ stored) hroot (Nat.le_refl _)
    rw [freeIds, foldFrom, fold, hterm, hfold, ExceptT.run_map, StateT.run_map, DenseSet.ofIds]
    change (((t.reduceRow collecting).run {}).run.run DenseMap.empty) = _ at hruns
    rw [hruns]
    change (_ <$> (_ <$> DenseSet.addAll .empty t.vars) >>= _) >>= _ = _
    cases DenseSet.addAll .empty t.vars with
    | ok row => rfl
    | error cause => rfl

/-! ### A stored term laid out anew -/

/-- The table with a term laid out at its end. -/
def grown (g : TermGraph) (records : Array Record) : TermGraph := { g with records }

theorem add_eq_ok {symbol : Nat} {args : List Node} (nonempty : args ≠ [])
    (held : ∀ node ∈ args, g.holds node = true) :
    g.add symbol args = .ok (g.grown (g.records.push ⟨symbol, args⟩)) := by
  have hmissing : g.missing? args = none := by
    rw [missing?, List.find?_eq_none]
    intro node hnode
    simp [held node hnode]
  rw [add, if_neg (by simpa using nonempty), hmissing]
  rfl

theorem run_func_rebuilding (symbol : Nat) (args : List Node) (g : TermGraph) :
    (rebuilding.func symbol args).run g = (fun g' => (.func g.size, g')) <$> g.add symbol args := by
  simp [rebuilding]

/-- Laying terms out record by record: applications without arguments are refused, and otherwise
the table grows by the records of the terms. -/
theorem run_recurseArgs_rebuilding {ts : List Term}
    (each : ∀ t ∈ ts, ∀ g : TermGraph,
      (Vocabulary.plain.Covers t ∧ (t.recurse rebuilding).run g =
        .ok ((layOut t g.records).1, g.grown (layOut t g.records).2)) ∨
      (¬Vocabulary.plain.Covers t ∧
        (t.recurse rebuilding).run g = .error .recordWithoutArguments)) (g : TermGraph) :
    ((∀ t ∈ ts, Vocabulary.plain.Covers t) ∧ (Term.recurseArgs rebuilding ts).run g =
      .ok ((layOutArgs ts g.records).1, g.grown (layOutArgs ts g.records).2)) ∨
    (¬(∀ t ∈ ts, Vocabulary.plain.Covers t) ∧
      (Term.recurseArgs rebuilding ts).run g = .error .recordWithoutArguments) := by
  induction ts generalizing g with
  | nil => exact .inl ⟨by simp, rfl⟩
  | cons t ts ih =>
    rw [Term.recurseArgs, StateT.run_bind]
    rcases each t List.mem_cons_self g with ⟨covered, hfirst⟩ | ⟨bare, hfirst⟩
    · have hrest := ih (fun t' ht' => each t' (List.mem_cons_of_mem t ht'))
        (g.grown (layOut t g.records).2)
      rw [hfirst]
      rcases hrest with ⟨hcovered, hrun⟩ | ⟨hbare, hrun⟩
      · refine .inl ⟨List.forall_mem_cons.2 ⟨covered, hcovered⟩, ?_⟩
        rw [ok_bind, StateT.run_bind, hrun]
        rfl
      · refine .inr ⟨fun h => hbare (List.forall_mem_cons.1 h).2, ?_⟩
        rw [ok_bind, StateT.run_bind, hrun]
        rfl
    · refine .inr ⟨fun h => bare (List.forall_mem_cons.1 h).1, ?_⟩
      rw [hfirst]
      rfl

theorem run_recurse_rebuilding (t : Term) (g : TermGraph) :
    (Vocabulary.plain.Covers t ∧ (t.recurse rebuilding).run g =
      .ok ((layOut t g.records).1, g.grown (layOut t g.records).2)) ∨
    (¬Vocabulary.plain.Covers t ∧
      (t.recurse rebuilding).run g = .error .recordWithoutArguments) := by
  induction t generalizing g with
  | var id => exact .inl ⟨.var id, rfl⟩
  | const symbol => exact .inl ⟨.const trivial, rfl⟩
  | app symbol args ih =>
    rw [Term.recurse, StateT.run_bind]
    rcases run_recurseArgs_rebuilding ih g with ⟨hcovered, hrun⟩ | ⟨hbare, hrun⟩
    · rw [hrun]
      have laid := laidOut_layOutArgs (v := .plain) g.records fun t ht =>
        laidOut_layOut (hcovered t ht)
      have held : ∀ node ∈ (layOutArgs args g.records).1,
          (g.grown (layOutArgs args g.records).2).holds node = true :=
        fun node hnode => holds_of_allows (laid.nodes node hnode)
      by_cases hargs : args = []
      · subst hargs
        refine .inr ⟨fun h => ?_, rfl⟩
        cases h with
        | app known _ => exact absurd known (Nat.lt_irrefl 0)
      · have hnodes : (layOutArgs args g.records).1 ≠ [] := by
          rw [← List.length_pos_iff, laid.length, List.length_pos_iff]
          exact hargs
        refine .inl ⟨.app (List.length_pos_iff.2 hargs) hcovered, ?_⟩
        rw [ok_bind, run_func_rebuilding, add_eq_ok hnodes held]
        rfl
    · refine .inr ⟨fun h => ?_, ?_⟩
      · cases h with
        | app _ covered => exact hbare covered
      · rw [hrun]
        rfl

theorem setRoot_layOut (symbol : Nat) (args : List Term) :
    (empty.grown (layOut (.app symbol args) #[]).2).setRoot (layOut (.app symbol args) #[]).1 =
      .ok (ofTerm (.app symbol args)) := by
  have hlt : (layOutArgs args #[]).2.size <
      (empty.grown (layOut (.app symbol args) #[]).2).size := by
    simp [grown, layOut, size]
  exact if_pos hlt

/-- **Laying a stored term out anew** succeeds if its variables fit into one row and its
applications have arguments, unless there is nothing to lay out. Then it gives the graph of the
term. -/
theorem compact_eq_ok_iff (stored : g.Stores g.root t) {g' : TermGraph} :
    g.compact = .ok g' ↔
      (g.root.kind = .func → DenseSet.FitRow t.vars ∧ Vocabulary.plain.Covers t) ∧
        g' = g.compacted := by
  have hterm : g.term = t := stored.termAt_eq
  cases hroot : g.root with
  | free id => simp [compact, compacted, hroot, Node.kind, eq_comm, pure, Except.pure]
  | const symbol => simp [compact, compacted, hroot, Node.kind, eq_comm, pure, Except.pure]
  | func index =>
    have hcompacted : g.compacted = ofTerm t := by rw [compacted, hroot, hterm]
    have hreduce : (t.reduce rebuilding).run empty = (t.recurse rebuilding).run empty := by
      rw [Term.reduce_eq_recurse (fun _ => settles_pure _) fun _ => settles_pure _]
    have hset : (empty.grown (layOut t #[]).2).setRoot (layOut t #[]).1 = .ok (ofTerm t) := by
      obtain ⟨r, ts, -, rfl, -⟩ := stores_func_iff.1 (hroot ▸ stored)
      exact setRoot_layOut r.symbol ts
    have hlaid := run_recurse_rebuilding t empty
    rw [compact, hroot, hcompacted]
    constructor
    · intro ok
      obtain ⟨⟨root, h⟩, hwalk, hroot⟩ := bind_eq_ok.1 ok
      obtain ⟨fit, hrun⟩ := (foldFrom_eq_ok_iff stored).1 hwalk
      rw [hreduce] at hrun
      rcases hlaid with ⟨covered, hlaid⟩ | ⟨-, hlaid⟩
      · obtain ⟨rfl, rfl⟩ := Prod.mk.inj (Except.ok.inj (hlaid.symm.trans hrun))
        exact ⟨fun _ => ⟨fit, covered⟩, Except.ok.inj (hroot.symm.trans hset)⟩
      · cases hlaid.symm.trans hrun
    · rintro ⟨hcan, rfl⟩
      obtain ⟨fit, covered⟩ := hcan rfl
      obtain ⟨-, hlaid⟩ := hlaid.resolve_right fun h => h.1 covered
      refine bind_eq_ok.2 ⟨_, (foldFrom_eq_ok_iff stored).2 ⟨fit, hreduce.trans hlaid⟩, hset⟩

theorem stores_of_foldFrom {σ α : Type} {r : Term.Reduction (StateT σ Checked) α} {s : σ}
    {x : α × σ}
    (ok : foldFrom r g s = .ok x) : g.Stores g.root g.term := by
  obtain ⟨t, ht⟩ := exists_stores_of_foldFrom ok
  rwa [show g.term = t from ht.termAt_eq]

theorem stores_of_freeIds {ids : DenseSet} (ok : g.freeIds = .ok ids) : g.Stores g.root g.term := by
  obtain ⟨x, hwalk, -⟩ := bind_eq_ok.1 ok
  exact stores_of_foldFrom hwalk

theorem stores_of_isTyped {signature : Signature} {typed : Bool}
    (ok : g.isTyped signature = .ok typed) : g.Stores g.root g.term := by
  obtain ⟨x, hwalk, -⟩ := bind_eq_ok.1 ok
  exact stores_of_foldFrom hwalk

end TermGraph

/-! ### Expressions and statements -/

namespace Expression

variable {e : Expression} {t : Term}

/-- Following the arguments from the root ends, and gives the term. -/
def Denotes (e : Expression) (t : Term) : Prop := e.graph.Stores e.graph.root t

theorem Denotes.term_eq (h : e.Denotes t) : e.term = t := h.termAt_eq

theorem denotes_term (acyclic : e.graph.IsAcyclic) : e.Denotes e.term := acyclic.stores_term

theorem Denotes.freeIds_eq (h : e.Denotes t) : e.freeIds = t.collect := TermGraph.freeIds_eq h

theorem denotes_of_freeIds {ids : DenseSet} (ok : e.freeIds = .ok ids) : e.Denotes e.term :=
  TermGraph.stores_of_freeIds ok

theorem covers_apart : Vocabulary.plain.Covers apart.term := by
  refine .app (Nat.succ_pos 1) fun u hu => ?_
  rcases List.mem_pair.1 hu with rfl | rfl
  · exact .var 0
  · exact .var _

end Expression

namespace Statement

variable {s : Statement} {e : Equation}

structure Denotes (s : Statement) (e : Equation) : Prop where
  lhs : s.lhs.Denotes e.lhs
  rhs : s.rhs.Denotes e.rhs

theorem Denotes.equation_eq (h : s.Denotes e) : s.equation = e := by
  have hlhs : s.left.term = e.lhs := h.lhs.term_eq
  have hrhs : s.right.term = e.rhs := h.rhs.term_eq
  rw [equation, hlhs, hrhs]

/-- No records that a side reaches lead in a circle. -/
def IsAcyclic (s : Statement) : Prop := s.lhs.graph.IsAcyclic ∧ s.rhs.graph.IsAcyclic

theorem IsAcyclic.denotes (h : s.IsAcyclic) : s.Denotes s.equation :=
  ⟨Expression.denotes_term h.1, Expression.denotes_term h.2⟩

theorem Denotes.freeIds_eq (h : s.Denotes e) : s.freeIds = e.collect := by
  rw [freeIds, h.lhs.freeIds_eq, h.rhs.freeIds_eq]
  rfl

theorem denotes_of_freeIds {ids : DenseSet} (ok : s.freeIds = .ok ids) : s.Denotes s.equation := by
  obtain ⟨left, hleft, ok⟩ := bind_eq_ok.1 ok
  obtain ⟨right, hright, -⟩ := bind_eq_ok.1 ok
  exact ⟨Expression.denotes_of_freeIds hleft, Expression.denotes_of_freeIds hright⟩

theorem fitRows_of_freeIds {ids : DenseSet} (ok : s.freeIds = .ok ids) : s.equation.FitRows := by
  have denotes := denotes_of_freeIds ok
  obtain ⟨left, hleft, ok⟩ := bind_eq_ok.1 ok
  obtain ⟨right, hright, -⟩ := bind_eq_ok.1 ok
  exact ⟨⟨left, denotes.lhs.freeIds_eq.symm.trans hleft⟩,
    ⟨right, denotes.rhs.freeIds_eq.symm.trans hright⟩⟩

theorem denotes_of_isTyped {signature : Signature} {typed : Bool}
    (ok : s.isTyped signature = .ok typed) : s.Denotes s.equation := by
  obtain ⟨left, hleft, ok⟩ := bind_eq_ok.1 ok
  obtain ⟨right, hright, -⟩ := bind_eq_ok.1 ok
  exact ⟨TermGraph.stores_of_isTyped hleft, TermGraph.stores_of_isTyped hright⟩

theorem bind_sides_eq_ok_iff {α β : Type} {left right : Checked α} {l r : Checked α}
    {f : α → α → β} {value : β}
    (hleft : ∀ x, left = .ok x ↔ DenseSet.FitRow e.lhs.vars ∧ l = .ok x)
    (hright : ∀ x, right = .ok x ↔ DenseSet.FitRow e.rhs.vars ∧ r = .ok x) :
    (do let x ← left; let y ← right; pure (f x y)) = .ok value ↔
      e.FitRows ∧ (do let x ← l; let y ← r; pure (f x y)) = .ok value := by
  constructor
  · intro ok
    obtain ⟨x, hx, ok⟩ := bind_eq_ok.1 ok
    obtain ⟨y, hy, ok⟩ := bind_eq_ok.1 ok
    obtain ⟨fit, hl⟩ := (hleft x).1 hx
    obtain ⟨fit', hr⟩ := (hright y).1 hy
    exact ⟨⟨fit, fit'⟩, bind_eq_ok.2 ⟨x, hl, bind_eq_ok.2 ⟨y, hr, ok⟩⟩⟩
  · rintro ⟨⟨fit, fit'⟩, ok⟩
    obtain ⟨x, hl, ok⟩ := bind_eq_ok.1 ok
    obtain ⟨y, hr, ok⟩ := bind_eq_ok.1 ok
    exact bind_eq_ok.2 ⟨x, (hleft x).2 ⟨fit, hl⟩, bind_eq_ok.2 ⟨y, (hright y).2 ⟨fit', hr⟩, ok⟩⟩

theorem Denotes.text_eq_ok_iff (h : s.Denotes e) {text : String} :
    s.text = .ok text ↔ e.FitRows ∧ e.text s.ctx = .ok text :=
  bind_sides_eq_ok_iff (fun _ => TermGraph.text_eq_ok_iff h.lhs s.ctx) fun _ =>
    TermGraph.text_eq_ok_iff h.rhs s.ctx

theorem Denotes.height_eq_ok_iff (h : s.Denotes e) {n : Nat} :
    s.height = .ok n ↔ e.FitRows ∧ e.height = n := by
  have hsides : s.height = .ok n ↔ e.FitRows ∧ (.ok e.height : Checked Nat) = .ok n :=
    bind_sides_eq_ok_iff (l := .ok e.lhs.height) (r := .ok e.rhs.height)
      (fun _ => (TermGraph.height_eq_ok_iff h.lhs).trans (by rw [Except.ok.injEq]))
      fun _ => (TermGraph.height_eq_ok_iff h.rhs).trans (by rw [Except.ok.injEq])
  rwa [Except.ok.injEq] at hsides

theorem Denotes.isTyped_eq_ok_iff (h : s.Denotes e) {signature : Signature} {typed : Bool} :
    s.isTyped signature = .ok typed ↔ e.FitRows ∧ e.isTyped signature = typed := by
  have hsides : s.isTyped signature = .ok typed ↔
      e.FitRows ∧ (.ok (e.isTyped signature) : Checked Bool) = .ok typed :=
    bind_sides_eq_ok_iff (l := .ok (e.lhs.isTyped signature)) (r := .ok (e.rhs.isTyped signature))
      (fun _ => (TermGraph.isTyped_eq_ok_iff h.lhs signature).trans (by rw [Except.ok.injEq]))
      fun _ => (TermGraph.isTyped_eq_ok_iff h.rhs signature).trans (by rw [Except.ok.injEq])
  rwa [Except.ok.injEq] at hsides

end Statement

end Equational
