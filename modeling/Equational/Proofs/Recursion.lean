import Equational.Proofs.Folding

/-!
# Reductions as plain recursions

A reduction keeps the values of leaves and uses them again. Where the value of a leaf depends on
nothing but the leaf, or the walk fails at it, this changes nothing: the reduction is the recursion
that asks for every leaf wherever it occurs (`Term.reduce_eq_recurse`).
-/

namespace Equational

namespace Term

/-! ### The values kept for leaves -/

namespace Leaves

variable {α : Type}

/-- The value that is kept for a leaf. -/
def value? (leaves : Leaves α) : Node → Option α
  | .free id => leaves.free.get? id
  | .const symbol => leaves.const.get? symbol
  | .func _ => none

/-- Keeps a value for a leaf. -/
def learn (leaves : Leaves α) (value : α) : Node → Leaves α
  | .free id => { leaves with free := leaves.free.insert id value }
  | .const symbol => { leaves with const := leaves.const.insert symbol value }
  | .func _ => leaves

/-- The leaves for which a value is kept. -/
def nodes (leaves : Leaves α) : Finset Node :=
  (leaves.free.keys.map .free).toFinset ∪ (leaves.const.keys.map .const).toFinset

theorem value?_learn (leaves : Leaves α) (value : α) {leaf : Node} (isLeaf : leaf.kind ≠ .func)
    (other : Node) :
    (leaves.learn value leaf).value? other =
      if other = leaf then some value else leaves.value? other := by
  cases leaf with
  | free id => cases other <;> simp [learn, value?, IdMap.get?_insert]
  | const symbol => cases other <;> simp [learn, value?, IdMap.get?_insert]
  | func index => exact absurd rfl isLeaf

theorem mem_nodes (leaves : Leaves α) (leaf : Node) :
    leaf ∈ leaves.nodes ↔ (leaves.value? leaf).isSome = true := by
  cases leaf <;> simp [nodes, value?, IdMap.mem_keys, IdMap.contains]

theorem nodes_learn (leaves : Leaves α) (value : α) {leaf : Node} (isLeaf : leaf.kind ≠ .func) :
    (leaves.learn value leaf).nodes = insert leaf leaves.nodes := by
  ext other
  rw [mem_nodes, value?_learn leaves value isLeaf, Finset.mem_insert, mem_nodes]
  by_cases h : other = leaf <;> simp [h]

end Leaves

variable {m : Type → Type} [Monad m] {α : Type}

/-- The value of a leaf, asked for only if none is kept. -/
def askLeaf (leaf : Node) (handler : m α) : StateT (Leaves α) m α := do
  match (← get).value? leaf with
  | some value => pure value
  | none =>
    let value ← handler
    modify (·.learn value leaf)
    pure value

theorem run_askLeaf_of_some {leaves : Leaves α} {leaf : Node} {value : α} [LawfulMonad m]
    (kept : leaves.value? leaf = some value) (handler : m α) :
    (askLeaf leaf handler).run leaves = pure (value, leaves) := by
  simp [askLeaf, kept]

theorem run_askLeaf_of_none {leaves : Leaves α} {leaf : Node} [LawfulMonad m]
    (new : leaves.value? leaf = none) (handler : m α) :
    (askLeaf leaf handler).run leaves =
      (fun value => (value, leaves.learn value leaf)) <$> handler := by
  simp [askLeaf, new]

/-! ### The plain recursion -/

section Recursion

mutual
/-- Reduces a term by recursion, with a call for every node. -/
def recurse (r : Reduction m α) : Term → m α
  | .var id => r.free id
  | .const symbol => r.const symbol
  | .app symbol args => do
    let values ← recurseArgs r args
    r.func symbol values
def recurseArgs (r : Reduction m α) : List Term → m (List α)
  | [] => pure []
  | t :: ts => do
    let first ← t.recurse r
    let rest ← recurseArgs r ts
    pure (first :: rest)
end

/-- Asking again changes nothing: there is a value and no more, or nothing happens after it. -/
def Settles (handler : m α) : Prop :=
  (∃ value, handler = pure value) ∨ ∀ (β : Type) (f g : α → m β), handler >>= f = handler >>= g

/-- The handler of a leaf. -/
def Reduction.ask? (r : Reduction m α) : Node → Option (m α)
  | .free id => some (r.free id)
  | .const symbol => some (r.const symbol)
  | .func _ => none

/-- All values that are kept are those that the handlers give. -/
def Leaves.Agree (leaves : Leaves α) (r : Reduction m α) : Prop :=
  ∀ leaf value, leaves.value? leaf = some value → r.ask? leaf = some (pure value)

variable {r : Reduction m α}

theorem Leaves.Agree.learn {leaves : Leaves α} (agree : leaves.Agree r) {leaf : Node} {value : α}
    (asks : r.ask? leaf = some (pure value)) : (leaves.learn value leaf).Agree r := by
  have isLeaf : leaf.kind ≠ .func := by
    cases leaf with
    | free id => simp [Node.kind]
    | const symbol => simp [Node.kind]
    | func index => cases asks
  intro other value' hother
  rw [Leaves.value?_learn leaves value isLeaf] at hother
  split at hother
  next heq => rw [heq, asks, Option.some_inj.1 hother]
  next => exact agree other value' hother

variable [LawfulMonad m]

theorem exists_askLeaf_eq (leaf : Node) {handler : m α} (asks : r.ask? leaf = some handler)
    (settles : Settles handler) {leaves : Leaves α} (agree : leaves.Agree r) :
    ∃ leaves' : Leaves α, leaves'.Agree r ∧
      (askLeaf leaf handler).run leaves = (fun value => (value, leaves')) <$> handler := by
  cases hkept : leaves.value? leaf with
  | some value =>
    obtain rfl : handler = pure value :=
      Option.some_inj.1 (asks.symm.trans (agree leaf value hkept))
    exact ⟨leaves, agree, by rw [run_askLeaf_of_some hkept, map_pure]⟩
  | none =>
    rw [run_askLeaf_of_none hkept]
    rcases settles with ⟨value, rfl⟩ | same
    · exact ⟨leaves.learn value leaf, agree.learn asks, by rw [map_pure, map_pure]⟩
    · refine ⟨leaves, agree, ?_⟩
      rw [map_eq_pure_bind, map_eq_pure_bind]
      exact same _ _ _

theorem exists_reduceArgs_eq {ts : List Term}
    (each : ∀ t ∈ ts, ∀ leaves : Leaves α, leaves.Agree r →
      ∃ leaves' : Leaves α, leaves'.Agree r ∧
        (t.reduceWith r).run leaves = (fun value => (value, leaves')) <$> t.recurse r)
    {leaves : Leaves α} (agree : leaves.Agree r) :
    ∃ leaves' : Leaves α, leaves'.Agree r ∧
      (reduceArgs r ts).run leaves = (fun values => (values, leaves')) <$> recurseArgs r ts := by
  induction ts generalizing leaves with
  | nil => exact ⟨leaves, agree, by simp [reduceArgs, recurseArgs]⟩
  | cons t ts ih =>
    obtain ⟨leaves₁, agree₁, hfirst⟩ := each t List.mem_cons_self leaves agree
    obtain ⟨leaves', agree', hrest⟩ :=
      ih (fun t' ht' => each t' (List.mem_cons_of_mem t ht')) agree₁
    refine ⟨leaves', agree', ?_⟩
    simp [reduceArgs, recurseArgs, hfirst, hrest]

theorem exists_reduceWith_eq (hfree : ∀ id, Settles (r.free id))
    (hconst : ∀ symbol, Settles (r.const symbol)) (t : Term) {leaves : Leaves α}
    (agree : leaves.Agree r) :
    ∃ leaves' : Leaves α, leaves'.Agree r ∧
      (t.reduceWith r).run leaves = (fun value => (value, leaves')) <$> t.recurse r := by
  induction t generalizing leaves with
  | var id => exact exists_askLeaf_eq (.free id) rfl (hfree id) agree
  | const symbol => exact exists_askLeaf_eq (.const symbol) rfl (hconst symbol) agree
  | app symbol args ih =>
    obtain ⟨leaves', agree', hrun⟩ :=
      exists_reduceArgs_eq (fun t ht leaves agree => ih t ht agree) agree
    refine ⟨leaves', agree', ?_⟩
    simp [reduceWith, recurse, hrun]

/-- **Keeping the values of leaves changes nothing** if asking again changes nothing. -/
theorem reduce_eq_recurse (hfree : ∀ id, Settles (r.free id))
    (hconst : ∀ symbol, Settles (r.const symbol)) (t : Term) : t.reduce r = t.recurse r := by
  have agree : ({} : Leaves α).Agree r := by
    intro leaf value hkept
    cases leaf <;> simp [Leaves.value?] at hkept
  obtain ⟨leaves', -, hrun⟩ := exists_reduceWith_eq hfree hconst t agree
  simp [reduce, hrun]

end Recursion

end Term

end Equational
