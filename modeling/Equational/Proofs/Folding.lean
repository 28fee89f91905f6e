import Equational.Proofs.Agenda
import Equational.Proofs.DenseSet
import Equational.Proofs.Unfolding
import Equational.TermGraph.Fold

/-!
# A stored term reduced from an agenda

Visiting a node leaves the value of the term that it stores on the stack, above the values that were
there, and keeps the values of the leaves that it met (`TermGraph.takes_visit`). The stack can never
be short of values, since a record is combined when the values of its arguments are uppermost.

The values of variables are kept in a row, which may get too long. Its shape depends only on the
variables that were met, so the walk fails if and only if these do not fit into one row. Otherwise
it is the reduction of the denoted term, for any handlers (`TermGraph.foldWithin_eq`).
-/

namespace Equational

@[simp] theorem liftM_ok {m : Type → Type} [Monad m] {α : Type} (a : α) :
    (liftM (Except.ok a : Checked α) : ExceptT Violation m α) = pure a := rfl

@[simp] theorem liftM_error {m : Type → Type} [Monad m] {α : Type} (cause : Violation) :
    (liftM (Except.error cause : Checked α) : ExceptT Violation m α) = throw cause := rfl

@[simp] theorem lastValue_nil {τ α : Type} (walk : String) (value : α) (values : List α) :
    lastValue walk ([] : List τ) (value :: values) = .ok value := rfl

/-- The values of all arguments stand on the stack, the last one uppermost. -/
theorem takeArgs_append {α : Type} {args : List α} {arity : Nat} (length : args.length = arity)
    (values : List α) : takeArgs arity (args ++ values) = .ok (args.reverse, values) := by
  subst length
  simp [takeArgs]

namespace Term

/-! ### The reduction of a term -/

/-- The values of the leaves met so far. -/
structure Leaves (α : Type) where
  free : IdMap α := .empty
  const : IdMap α := .empty

variable {m : Type → Type} [Monad m] {α : Type}

mutual
/-- Reduces a term, arguments from left to right. The value of a leaf is computed where it occurs
first and used again where it occurs later. -/
def reduceWith (r : Reduction m α) : Term → StateT (Leaves α) m α
  | .var id => do
    match (← get).free.get? id with
    | some value => pure value
    | none =>
      let value ← r.free id
      modify fun leaves => { leaves with free := leaves.free.insert id value }
      pure value
  | .const symbol => do
    match (← get).const.get? symbol with
    | some value => pure value
    | none =>
      let value ← r.const symbol
      modify fun leaves => { leaves with const := leaves.const.insert symbol value }
      pure value
  | .app symbol args => do
    let values ← reduceArgs r args
    r.func symbol values
def reduceArgs (r : Reduction m α) : List Term → StateT (Leaves α) m (List α)
  | [] => pure []
  | t :: ts => do
    let first ← t.reduceWith r
    let rest ← reduceArgs r ts
    pure (first :: rest)
end

def reduce (r : Reduction m α) (t : Term) : m α := do
  let (value, _) ← (t.reduceWith r).run {}
  pure value

/-! ### The reduction with rows -/

open TermGraph (LeafCache)
open DenseMap (limit)

mutual
/-- The same with the values of variables in a row, which may get too long. -/
def reduceRow (r : Reduction m α) : Term → StateT (LeafCache α) (ExceptT Violation m) α
  | .var id => do
    let leaves ← get
    match leaves.free.lookup id with
    | some value => pure value
    | none =>
      let value ← r.free id
      if leaves.free.sizeFor id ≤ limit then
        set { leaves with free := leaves.free.bound id value }
        pure value
      else throw .rowTooLong
  | .const symbol => do
    let leaves ← get
    match leaves.const.get? symbol with
    | some value => pure value
    | none =>
      let value ← r.const symbol
      set { leaves with const := leaves.const.insert symbol value }
      pure value
  | .app symbol args => do
    let values ← reduceRowArgs r args
    r.func symbol values
def reduceRowArgs (r : Reduction m α) :
    List Term → StateT (LeafCache α) (ExceptT Violation m) (List α)
  | [] => pure []
  | t :: ts => do
    let first ← t.reduceRow r
    let rest ← reduceRowArgs r ts
    pure (first :: rest)
end

end Term

namespace TermGraph

variable {m : Type → Type} [Monad m] [LawfulMonad m] {α : Type} {r : Term.Reduction m α}
  {g : TermGraph} {node : Node} {t : Term} {index : Nat} {record : Record}

/-! ### A walk through one table -/

theorem recordAt_of_found (found : g.records[index]? = some record) :
    g.recordAt index = .ok record := by
  rw [recordAt, found]
  rfl

/-- The state in which the value of a part is on the stack. -/
def withValue (values : List α) (found : α × LeafCache α) : FoldState α :=
  ⟨found.1 :: values, found.2⟩

/-- What a visit does: the value of the term goes on the stack. -/
def visited (r : Term.Reduction m α) (t : Term) (s : FoldState α) :
    ExceptT Violation m (FoldState α) :=
  withValue s.values <$> (t.reduceRow r).run s.leaves

theorem takes_visit_free (id : Nat) (s : FoldState α) :
    Takes (foldTask r g) [.visit (.free id)] s 1 (visited r (.var id) s) := by
  apply takes_of_work_eq
  simp only [foldTask, visited, Term.reduceRow, DenseMap.get?_eq, DenseMap.insert_eq]
  cases hfound : s.leaves.free.lookup id with
  | some value => simp [hfound, FoldState.push, withValue]
  | none =>
    by_cases fits : s.leaves.free.sizeFor id ≤ DenseMap.limit
    · simp [hfound, fits, FoldState.push, withValue]
    · simp [hfound, fits]

theorem takes_visit_const (symbol : Nat) (s : FoldState α) :
    Takes (foldTask r g) [.visit (.const symbol)] s 1 (visited r (.const symbol) s) := by
  apply takes_of_work_eq
  simp only [foldTask, visited, Term.reduceRow]
  cases hfound : s.leaves.const.get? symbol with
  | some value => simp [hfound, FoldState.push, withValue]
  | none => simp [hfound, FoldState.push, withValue]

/-- What combining does: the values of the arguments make place for that of the application. -/
theorem takes_combine (found : g.records[index]? = some record) {args : List α}
    (length : args.length = record.arity) (values : List α) (leaves : LeafCache α) :
    Takes (foldTask r g) [.combine index] ⟨args ++ values, leaves⟩ 1
      ((fun value => ⟨value :: values, leaves⟩) <$> liftM (r.func record.symbol args.reverse)) := by
  apply takes_of_work_eq
  simp only [foldTask, recordAt_of_found found, liftM_ok, pure_bind, takeArgs_append length]
  simp

/-- The arguments that are left are visited in order, on top of the values of those before them, and
then the record is combined. -/
theorem takes_args (found : g.records[index]? = some record) {term : Node → Term}
    {rest : List Node}
    (visits : ∀ arg ∈ rest, ∀ s, Takes (foldTask r g) [.visit arg] s (term arg).visits
      (visited r (term arg) s))
    (args values : List α) (leaves : LeafCache α)
    (length : args.length + rest.length = record.arity) :
    Takes (foldTask r g) (rest.map .visit ++ [.combine index]) ⟨args ++ values, leaves⟩
      (Term.visitsArgs (rest.map term) + 1) (do
        let (more, leaves) ← (Term.reduceRowArgs r (rest.map term)).run leaves
        let value ← r.func record.symbol (args.reverse ++ more)
        pure ⟨value :: values, leaves⟩) := by
  induction rest generalizing args leaves with
  | nil =>
    have h := takes_combine (r := r) found length values leaves
    simpa [Term.reduceRowArgs, Term.visitsArgs] using h
  | cons arg rest ih =>
    have hfirst := visits arg List.mem_cons_self ⟨args ++ values, leaves⟩
    have hrest (value : α) (leaves' : LeafCache α) :=
      ih (fun arg' harg' => visits arg' (List.mem_cons_of_mem arg harg')) (value :: args) leaves'
        (by simp only [List.length_cons] at length ⊢; omega)
    have h := hfirst.append fun found => hrest found.1 found.2
    simpa [Term.reduceRowArgs, Term.visitsArgs, Nat.add_assoc] using h

/-- **Visiting a node** reduces the term that it stores. -/
theorem takes_visit (stored : g.Stores node t) (s : FoldState α) :
    Takes (foldTask r g) [.visit node] s t.visits (visited r t s) := by
  induction stored generalizing s with
  | free id => exact takes_visit_free id s
  | const symbol => exact takes_visit_const symbol s
  | @func index record term found _ ih =>
    have hargs := takes_args found ih [] s.values s.leaves (Nat.zero_add _)
    have works : foldTask r g (.visit (.func index)) s =
        pure (record.args.map .visit ++ [.combine index], s) := by
      simp only [foldTask, recordAt_of_found found, liftM_ok, pure_bind]
    have h := takes_of_work_eq_pure works hargs
    simpa [visited, withValue, Term.reduceRow, Term.visits] using h

/-! ### Rows that are long enough -/

theorem run_reduceRow_var_of_some {d : LeafCache α} {id : Nat} {value : α}
    (found : d.free.lookup id = some value) :
    ((Term.var id).reduceRow r).run d = pure (value, d) := by
  simp [Term.reduceRow, found]

theorem run_reduceRow_var_of_none {d : LeafCache α} {id : Nat} (new : d.free.lookup id = none) :
    ((Term.var id).reduceRow r).run d = (do
      let value ← r.free id
      if d.free.sizeFor id ≤ DenseMap.limit then
        pure (value, { d with free := d.free.bound id value })
      else throw .rowTooLong) := by
  by_cases fits : d.free.sizeFor id ≤ DenseMap.limit
  · simp [Term.reduceRow, new, fits]
  · simp [Term.reduceRow, new, fits]

theorem run_reduceRow_const (d : LeafCache α) (symbol : Nat) :
    ((Term.const symbol).reduceRow r).run d =
      match d.const.get? symbol with
      | some value => pure (value, d)
      | none => (do
        let value ← r.const symbol
        pure (value, { d with const := d.const.insert symbol value })) := by
  cases hfound : d.const.get? symbol with
  | some value => simp [Term.reduceRow, hfound]
  | none => simp [Term.reduceRow, hfound]

/-- What a cache holds. -/
def LeafCache.leaves (d : LeafCache α) : Term.Leaves α := ⟨d.free.toIdMap, d.const⟩

/-- From a cache whose row has room for the ids, the run does what `spec` does. Afterwards the row
has the shape that adding the ids gives it. -/
def InRow {β : Type} (run : StateT (LeafCache α) (ExceptT Violation m) β)
    (spec : StateT (Term.Leaves α) m β) (ids : List Nat) : Prop :=
  ∀ (d : LeafCache α) (row : DenseSet), d.free.slots.size ≤ DenseMap.limit →
    d.free.shape.addAll ids = .ok row →
      ∃ x : m (β × { d' : LeafCache α // d'.free.shape = row }),
        run.run d = liftM ((fun p => (p.1, p.2.1)) <$> x) ∧
        (fun p => (p.1, p.2.1.leaves)) <$> x = spec.run d.leaves

section InRow

variable {β γ : Type} {run : StateT (LeafCache α) (ExceptT Violation m) β}
  {spec : StateT (Term.Leaves α) m β} {ids ids' : List Nat}

theorem inRow_pure (b : β) : InRow (m := m) (α := α) (pure b) (pure b) [] := by
  intro d row short ok
  obtain rfl := Except.ok.inj ok
  exact ⟨pure (b, ⟨d, rfl⟩), by simp, by simp⟩

theorem inRow_lift (handler : m β) :
    InRow (m := m) (α := α) (liftM handler) (liftM handler) [] := by
  intro d row short ok
  obtain rfl := Except.ok.inj ok
  exact ⟨(fun b => (b, ⟨d, rfl⟩)) <$> handler, by simp, by simp⟩

theorem InRow.bind {next : β → StateT (LeafCache α) (ExceptT Violation m) γ}
    {nextSpec : β → StateT (Term.Leaves α) m γ} (first : InRow run spec ids)
    (second : ∀ b, InRow (next b) (nextSpec b) ids') :
    InRow (run >>= next) (spec >>= nextSpec) (ids ++ ids') := by
  intro d row short ok
  rw [DenseSet.addAll_append] at ok
  obtain ⟨middle, hmiddle, hrow⟩ := bind_eq_ok.1 ok
  obtain ⟨x, hx, hx'⟩ := first d middle short hmiddle
  have hsecond (p : β × { d' : LeafCache α // d'.free.shape = middle }) := by
    have hshort : p.2.1.free.slots.size ≤ DenseMap.limit := by
      rw [← DenseMap.size_shape, p.2.2]
      exact DenseSet.size_le_of_addAll (by simpa using short) hmiddle
    exact second p.1 p.2.1 row hshort (p.2.2.symm ▸ hrow)
  choose y hy hy' using hsecond
  refine ⟨x >>= y, ?_, ?_⟩
  · simp [hx, hy]
  · simp [← hx', hy']

theorem inRow_var (r : Term.Reduction m α) (id : Nat) :
    InRow ((Term.var id).reduceRow r) ((Term.var id).reduceWith r) [id] := by
  intro d row short ok
  rw [DenseSet.addAll_singleton, DenseMap.sizeFor_shape] at ok
  split at ok
  next fits =>
    obtain rfl := Except.ok.inj ok
    cases hfound : d.free.lookup id with
    | some value =>
      have hrow : d.free.shape = d.free.shape.bound id () := by
        rw [DenseSet.bound_of_lookup]
        rw [DenseMap.lookup_shape, hfound]
        rfl
      refine ⟨pure (value, ⟨d, hrow⟩), ?_, ?_⟩
      · simp [run_reduceRow_var_of_some hfound]
      · simp [Term.reduceWith, LeafCache.leaves, hfound]
    | none =>
      refine ⟨(fun value => (value, ⟨{ d with free := d.free.bound id value }, ?_⟩)) <$> r.free id,
        ?_, ?_⟩
      · exact DenseMap.shape_bound d.free id value
      · simp [run_reduceRow_var_of_none hfound, fits]
      · simp [Term.reduceWith, LeafCache.leaves, hfound, DenseMap.toIdMap_bound]
  next => cases ok

theorem inRow_const (r : Term.Reduction m α) (symbol : Nat) :
    InRow ((Term.const symbol).reduceRow r) ((Term.const symbol).reduceWith r) [] := by
  intro d row short ok
  obtain rfl := Except.ok.inj ok
  cases hfound : d.const.get? symbol with
  | some value =>
    refine ⟨pure (value, ⟨d, rfl⟩), ?_, ?_⟩
    · simp [run_reduceRow_const, hfound]
    · simp [Term.reduceWith, LeafCache.leaves, hfound]
  | none =>
    refine ⟨(fun value => (value, ⟨{ d with const := d.const.insert symbol value }, rfl⟩)) <$>
      r.const symbol, ?_, ?_⟩
    · simp [run_reduceRow_const, hfound]
    · simp [Term.reduceWith, LeafCache.leaves, hfound]

theorem inRow_reduceRowArgs {ts : List Term}
    (each : ∀ t ∈ ts, InRow (t.reduceRow r) (t.reduceWith r) t.vars) :
    InRow (Term.reduceRowArgs r ts) (Term.reduceArgs r ts) (Term.varsArgs ts) := by
  induction ts with
  | nil => exact inRow_pure []
  | cons t ts ih =>
    have hrest := ih fun t' ht' => each t' (List.mem_cons_of_mem t ht')
    refine (each t List.mem_cons_self).bind fun first => ?_
    rw [← List.append_nil (Term.varsArgs ts)]
    exact hrest.bind fun rest => inRow_pure (first :: rest)

/-- Where the variables of a term fit into the row, keeping values in it changes nothing. -/
theorem inRow_reduceRow (r : Term.Reduction m α) (t : Term) :
    InRow (t.reduceRow r) (t.reduceWith r) t.vars := by
  induction t with
  | var id => exact inRow_var r id
  | const symbol => exact inRow_const r symbol
  | app symbol args ih =>
    rw [Term.vars, ← List.append_nil (Term.varsArgs args)]
    exact (inRow_reduceRowArgs ih).bind fun values => inRow_lift (r.func symbol values)

end InRow

/-! ### Reductions of a stored term -/

theorem foldWithin_eq_reduceRow (stored : g.Stores (.func index) t) (hroot : g.root = .func index)
    {count : Nat} (enough : t.visits ≤ count) :
    foldWithin count r g = Prod.fst <$> (t.reduceRow r).run {} := by
  have hruns := (takes_visit (r := r) stored {}).workOff_eq enough
  simp only [foldWithin, hroot, hruns, visited]
  simp [withValue]

/-- **A walk from an agenda** is the reduction of the term, if its variables fit into one row. -/
theorem foldWithin_eq (stored : g.Stores g.root t) (fit : DenseSet.FitRow t.vars) {count : Nat}
    (enough : t.visits ≤ count) : foldWithin count r g = liftM (t.reduce r) := by
  cases hroot : g.root with
  | free id =>
    cases hroot ▸ stored
    simp [foldWithin, hroot, Term.reduce, Term.reduceWith]
  | const symbol =>
    cases hroot ▸ stored
    simp [foldWithin, hroot, Term.reduce, Term.reduceWith]
  | func index =>
    obtain ⟨row, hrow⟩ := fit
    obtain ⟨x, hx, hx'⟩ := inRow_reduceRow r t {} row (Nat.zero_le _) 
      (by simpa [DenseSet.ofIds] using hrow)
    rw [foldWithin_eq_reduceRow (hroot ▸ stored) hroot enough, hx, Term.reduce]
    have hleaves : (({} : LeafCache α).leaves) = {} := rfl
    rw [← hleaves, ← hx']
    simp

/-! ### Walks that may fail -/

section Checked

variable {σ β γ : Type}

theorem exists_of_run_bind {x : ExceptT Violation (StateT σ Checked) β}
    {f : β → ExceptT Violation (StateT σ Checked) γ} {s s'' : σ} {c : γ}
    (h : (x >>= f).run.run s = .ok (.ok c, s'')) :
    ∃ b s', x.run.run s = .ok (.ok b, s') ∧ (f b).run.run s' = .ok (.ok c, s'') := by
  rw [ExceptT.run_bind, StateT.run_bind] at h
  obtain ⟨⟨result, s'⟩, hx, hf⟩ := bind_eq_ok.1 h
  cases result with
  | ok b => exact ⟨b, s', hx, hf⟩
  | error cause => cases hf

/-- A run that succeeds has put the ids into the row. -/
def Fills (run : StateT (LeafCache α) (ExceptT Violation (StateT σ Checked)) β) (ids : List Nat) :
    Prop :=
  ∀ (d d' : LeafCache α) (s s' : σ) (b : β), d.free.slots.size ≤ DenseMap.limit →
    (run.run d).run.run s = .ok (.ok (b, d'), s') → d.free.shape.addAll ids = .ok d'.free.shape

theorem fills_pure (b : β) : Fills (σ := σ) (α := α) (pure b) [] := by
  intro d d' s s' b' short h
  cases h
  rfl

theorem fills_lift (handler : StateT σ Checked β) :
    Fills (σ := σ) (α := α) (liftM handler) [] := by
  intro d d' s s' b' short h
  obtain ⟨b, s₁, -, h⟩ := exists_of_run_bind h
  cases h
  rfl

theorem Fills.bind {run : StateT (LeafCache α) (ExceptT Violation (StateT σ Checked)) β}
    {next : β → StateT (LeafCache α) (ExceptT Violation (StateT σ Checked)) γ} {ids ids' : List Nat}
    (first : Fills run ids) (second : ∀ b, Fills (next b) ids') :
    Fills (run >>= next) (ids ++ ids') := by
  intro d d'' s s'' c short h
  rw [StateT.run_bind] at h
  obtain ⟨⟨b, d'⟩, s', hrun, hnext⟩ := exists_of_run_bind h
  have hids := first d d' s s' b short hrun
  have hshort : d'.free.slots.size ≤ DenseMap.limit := by
    rw [← DenseMap.size_shape]
    exact DenseSet.size_le_of_addAll (by simpa using short) hids
  rw [DenseSet.addAll_append, hids]
  exact second b d' d'' s' s'' c hshort hnext

variable {r : Term.Reduction (StateT σ Checked) α}

theorem fills_var (r : Term.Reduction (StateT σ Checked) α) (id : Nat) :
    Fills ((Term.var id).reduceRow r) [id] := by
  intro d d' s s' b short h
  rw [DenseSet.addAll_singleton, DenseMap.sizeFor_shape]
  cases hfound : d.free.lookup id with
  | some value =>
    have hpresent : d.free.shape.lookup id = some () := by
      rw [DenseMap.lookup_shape, hfound]
      rfl
    have hsize : d.free.sizeFor id ≤ DenseMap.limit := by
      rw [DenseMap.sizeFor_of_covers (DenseMap.covers_of_lookup hfound)]
      exact short
    rw [run_reduceRow_var_of_some hfound] at h
    cases h
    rw [if_pos hsize, DenseSet.bound_of_lookup hpresent]
  | none =>
    rw [run_reduceRow_var_of_none hfound] at h
    obtain ⟨value, s₁, -, h⟩ := exists_of_run_bind h
    split at h
    next fits =>
      cases h
      rw [if_pos fits, DenseMap.shape_bound]
    next => cases h

theorem fills_const (r : Term.Reduction (StateT σ Checked) α) (symbol : Nat) :
    Fills ((Term.const symbol).reduceRow r) [] := by
  intro d d' s s' b short h
  rw [run_reduceRow_const] at h
  split at h
  next =>
    cases h
    rfl
  next =>
    obtain ⟨value, s₁, -, h⟩ := exists_of_run_bind h
    cases h
    rfl

theorem fills_reduceRowArgs {ts : List Term} (each : ∀ t ∈ ts, Fills (t.reduceRow r) t.vars) :
    Fills (Term.reduceRowArgs r ts) (Term.varsArgs ts) := by
  induction ts with
  | nil => exact fills_pure []
  | cons t ts ih =>
    have hrest := ih fun t' ht' => each t' (List.mem_cons_of_mem t ht')
    refine (each t List.mem_cons_self).bind fun first => ?_
    rw [← List.append_nil (Term.varsArgs ts)]
    exact hrest.bind fun rest => fills_pure (first :: rest)

theorem fills_reduceRow (r : Term.Reduction (StateT σ Checked) α) (t : Term) :
    Fills (t.reduceRow r) t.vars := by
  induction t with
  | var id => exact fills_var r id
  | const symbol => exact fills_const r symbol
  | app symbol args ih =>
    rw [Term.vars, ← List.append_nil (Term.varsArgs args)]
    exact (fills_reduceRowArgs ih).bind fun values => fills_lift (r.func symbol values)

/-- A walk that is done with its agenda has met a record at each node below those on it. -/
theorem exists_stores_of_workOff {count : Nat} {agenda : List FoldTask} {state state' : FoldState α}
    {s s' : σ}
    (run : (workOff (foldTask r g) count agenda state).run.run s = .ok (.ok ([], state'), s'))
    {node : Node} (hnode : .visit node ∈ agenda) : ∃ t, g.Stores node t := by
  induction count generalizing agenda state s node with
  | zero =>
    cases run
    cases hnode
  | succ count ih =>
    cases agenda with
    | nil => cases hnode
    | cons task agenda =>
      rw [workOff] at run
      obtain ⟨⟨more, state₁⟩, s₁, htask, hrest⟩ := exists_of_run_bind run
      rcases List.mem_cons.1 hnode with rfl | hnode
      · cases node with
        | free id => exact ⟨_, .free id⟩
        | const symbol => exact ⟨_, .const symbol⟩
        | func index =>
          obtain ⟨record, s₂, hrecord, hmore⟩ := exists_of_run_bind htask
          have found : g.records[index]? = some record := by
            rw [recordAt] at hrecord
            cases hindex : g.records[index]? with
            | none =>
              rw [hindex] at hrecord
              cases hrecord
            | some found =>
              rw [hindex] at hrecord
              cases hrecord
              rfl
          cases hmore
          have hargs : ∀ arg ∈ record.args, ∃ t, g.Stores arg t := fun arg harg =>
            ih hrest (List.mem_append_left _ (List.mem_append_left _ (List.mem_map_of_mem harg)))
          choose! term hterm using hargs
          exact ⟨_, .func found hterm⟩
      · exact ih hrest (List.mem_append_right _ hnode)

theorem exists_stores_of_foldFrom {s : σ} {x : α × σ} (ok : foldFrom r g s = .ok x) :
    ∃ t, g.Stores g.root t := by
  cases hroot : g.root with
  | free id => exact ⟨_, .free id⟩
  | const symbol => exact ⟨_, .const symbol⟩
  | func index =>
    obtain ⟨⟨result, s'⟩, hrun, hresult⟩ := bind_eq_ok.1 ok
    obtain ⟨value, rfl, -⟩ := bind_eq_ok.1 hresult
    rw [fold, foldWithin, hroot] at hrun
    obtain ⟨⟨agenda, state⟩, s₁, hwork, hlast⟩ := exists_of_run_bind hrun
    cases agenda with
    | nil => exact exists_stores_of_workOff hwork List.mem_cons_self
    | cons task agenda => cases hlast

theorem foldFrom_eq (stored : g.Stores g.root t) (fit : DenseSet.FitRow t.vars) (s : σ) :
    foldFrom r g s = (t.reduce r).run s := by
  have hterm : g.term = t := stored.termAt_eq
  have hrun : (liftM (t.reduce r) : ExceptT Violation (StateT σ Checked) α).run.run s =
      (fun x => (.ok x.1, x.2)) <$> (t.reduce r).run s := by
    simp
  rw [foldFrom, fold, hterm, foldWithin_eq stored fit (Nat.le_refl _), hrun]
  cases (t.reduce r).run s with
  | ok x => rfl
  | error cause => rfl

theorem fitRow_of_foldFrom {s : σ} {x : α × σ} (stored : g.Stores g.root t)
    (ok : foldFrom r g s = .ok x) : DenseSet.FitRow t.vars := by
  have hterm : g.term = t := stored.termAt_eq
  cases hroot : g.root with
  | free id =>
    cases hroot ▸ stored
    exact DenseSet.fitRow_singleton id
  | const symbol =>
    cases hroot ▸ stored
    exact DenseSet.fitRow_nil
  | func index =>
    rw [foldFrom, fold, hterm, foldWithin_eq_reduceRow (hroot ▸ stored) hroot (Nat.le_refl _)] at ok
    obtain ⟨⟨result, s'⟩, hrun, hresult⟩ := bind_eq_ok.1 ok
    obtain ⟨value, rfl, -⟩ := bind_eq_ok.1 hresult
    rw [map_eq_pure_bind] at hrun
    obtain ⟨⟨value', d⟩, s₁, hreduce, -⟩ := exists_of_run_bind hrun
    have hrow := fills_reduceRow r t {} d s s₁ value' (Nat.zero_le _) hreduce
    rw [DenseMap.shape_empty] at hrow
    exact ⟨_, hrow⟩

/-- A walk with handlers that may fail succeeds if and only if the variables fit into one row and
the reduction of the term succeeds. -/
theorem foldFrom_eq_ok_iff {s : σ} {x : α × σ} (stored : g.Stores g.root t) :
    foldFrom r g s = .ok x ↔ DenseSet.FitRow t.vars ∧ (t.reduce r).run s = .ok x := by
  constructor
  · intro ok
    have fit := fitRow_of_foldFrom stored ok
    exact ⟨fit, (foldFrom_eq stored fit s).symm.trans ok⟩
  · rintro ⟨fit, ok⟩
    rw [foldFrom_eq stored fit s, ok]

end Checked

end TermGraph

end Equational
