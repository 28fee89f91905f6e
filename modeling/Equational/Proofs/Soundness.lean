import Equational.Proofs.Successor

/-!
# What is proved is true

An algebra gives a value to every constant and every function symbol, so that a term has a
value under every assignment of its variables. If the rules hold in an algebra then one
rewrite changes the value of neither side of an equation; so an equation holds as soon as
one that a chain of successors leads to does. A trivial equation holds because it is an
instance of a rule, or has the same term on both sides.

Only this direction is about successors: that every equation true in all algebras has a
proof is not claimed.
-/

namespace Equational

universe u

/-- Values for the constants and the function symbols. -/
structure Algebra (A : Type u) where
  const : Nat → A
  func : Nat → List A → A

namespace Algebra

variable {A : Type u} (M : Algebra A)

mutual
/-- The value of a term under an assignment of its variables. -/
def eval (v : Nat → A) : Term → A
  | .var id => v id
  | .const symbol => M.const symbol
  | .app symbol args => M.func symbol (evalArgs v args)
def evalArgs (v : Nat → A) : List Term → List A
  | [] => []
  | t :: ts => eval v t :: evalArgs v ts
end

/-- Both sides have the same value. -/
def Holds (v : Nat → A) (e : Equation) : Prop := M.eval v e.lhs = M.eval v e.rhs

/-- The equation holds under every assignment. -/
def Satisfies (e : Equation) : Prop := ∀ v, M.Holds v e

/-! ### Values -/

theorem evalArgs_eq_map (v : Nat → A) (ts : List Term) : M.evalArgs v ts = ts.map (M.eval v) := by
  induction ts with
  | nil => rfl
  | cons t ts ih => rw [evalArgs, ih, List.map_cons]

@[simp] theorem eval_app (v : Nat → A) (symbol : Nat) (args : List Term) :
    M.eval v (.app symbol args) = M.func symbol (args.map (M.eval v)) := by
  rw [eval, evalArgs_eq_map]

theorem eval_bind (v : Nat → A) (σ : Nat → Term) (t : Term) :
    M.eval v (t.bind σ) = M.eval (fun id => M.eval v (σ id)) t := by
  induction t with
  | var id => rfl
  | const symbol => rfl
  | app symbol args ih =>
    have hargs : (args.map (·.bind σ)).map (M.eval v) =
        args.map (M.eval fun id => M.eval v (σ id)) := by
      rw [List.map_map]
      exact List.map_congr_left ih
    rw [Term.bind_app, eval_app, hargs, eval_app]

theorem eval_replaceAt {v : Nat → A} {t u new : Term} {path : List Nat} (here : t.HasAt path u)
    (same : M.eval v new = M.eval v u) : M.eval v (t.replaceAt path new) = M.eval v t := by
  induction here with
  | root t => exact same
  | @arg symbol i args t u path nth _ ih =>
    obtain ⟨hlt, rfl⟩ := List.getElem?_eq_some_iff.1 nth
    have hset : (args.set i (args[i].replaceAt path new)).map (M.eval v) =
        args.map (M.eval v) := by
      rw [List.map_set, ih same, ← List.map_set, List.set_getElem_self]
    rw [Term.replaceAt_arg nth, eval_app, hset, eval_app]

/-! ### Equations -/

theorem holds_bind {v : Nat → A} {σ : Nat → Term} {e : Equation} :
    M.Holds v (e.bind σ) ↔ M.Holds (fun id => M.eval v (σ id)) e := by
  rw [Holds, Equation.bind, eval_bind, eval_bind, Holds]

theorem holds_transpose {v : Nat → A} {e : Equation} : M.Holds v e.transpose ↔ M.Holds v e :=
  eq_comm

theorem satisfies_transpose {e : Equation} : M.Satisfies e.transpose ↔ M.Satisfies e :=
  forall_congr' fun _ => M.holds_transpose

theorem Satisfies.bind {M : Algebra A} {e : Equation} (h : M.Satisfies e) (σ : Nat → Term) :
    M.Satisfies (e.bind σ) :=
  fun _ => M.holds_bind.2 (h _)

theorem Satisfies.of_shift {M : Algebra A} {e : Equation} {n : Nat} (h : M.Satisfies (e.shift n)) :
    M.Satisfies e := by
  intro v
  have hshift := M.holds_bind.1 (h fun id => v (id - n))
  simpa only [eval, Nat.add_sub_cancel] using hshift

theorem holds_replaceAt {v : Nat → A} {e : Equation} {site : Site} {new : Term}
    (here : site ∈ e.sites) (same : M.eval v new = M.eval v site.occurrence.term) :
    M.Holds v (e.replaceAt site new) ↔ M.Holds v e := by
  have heval := M.eval_replaceAt (Equation.mem_sites.1 here) same
  obtain ⟨side, o⟩ := site
  cases side with
  | lhs =>
    have hlhs : M.eval v (e.lhs.replaceAt o.path new) = M.eval v e.lhs := heval
    show M.eval v (e.lhs.replaceAt o.path new) = M.eval v e.rhs ↔ M.eval v e.lhs = M.eval v e.rhs
    rw [hlhs]
  | rhs =>
    have hrhs : M.eval v (e.rhs.replaceAt o.path new) = M.eval v e.rhs := heval
    show M.eval v e.lhs = M.eval v (e.rhs.replaceAt o.path new) ↔ M.eval v e.lhs = M.eval v e.rhs
    rw [hrhs]

/-- **One rewrite** with equations that hold leads to an equation that holds just where the
first one does. -/
theorem holds_of_rewrites {rules : List Equation} {constants : List Nat} {w e : Equation}
    (model : ∀ rule ∈ rules, M.Satisfies rule) (h : w.Rewrites rules constants e) (v : Nat → A) :
    M.Holds v e ↔ M.Holds v w := by
  obtain @⟨site, rule, σ, u, here, known, applies⟩ := h
  refine M.holds_replaceAt here ?_
  have hrule : M.Satisfies rule := by
    rcases known with known | known
    · exact model rule known
    · exact M.satisfies_transpose.1 (model _ known)
  calc M.eval v u
      = M.eval v (rule.rhs.bind σ) := by rw [applies.result]
    _ = M.eval v (rule.lhs.bind σ) := (hrule.bind σ v).symm
    _ = M.eval v site.occurrence.term := by rw [applies.found]

theorem satisfies_of_isTrivial {k : Kernel} (model : ∀ rule ∈ k.equations, M.Satisfies rule)
    {e : Equation} (h : k.isTrivial e = true) : M.Satisfies e := by
  rcases Kernel.isTrivial_iff.1 h with hsides | ⟨rule, hrule, σ, hσ | hσ⟩
  · intro v
    rw [Holds, hsides]
  · exact hσ ▸ (model rule hrule).bind σ
  · exact M.satisfies_transpose.1 (hσ ▸ (model rule hrule).bind σ)

end Algebra

namespace Kernel

variable {A : Type u} {M : Algebra A} {k : Kernel} {s t : ProofState}

theorem IsSuccessor.satisfies (bounded : k.IsBounded)
    (model : ∀ rule ∈ k.equations, M.Satisfies rule) (next : k.IsSuccessor s t)
    (h : M.Satisfies t.forefront) : M.Satisfies s.forefront := by
  have hrewrites := (mem_expansions bounded).1 (mem_expected.1 (next.expected bounded)).1
  have habove : M.Satisfies (s.forefront.above k.bound) :=
    fun v => (M.holds_of_rewrites model hrewrites v).1 (h v)
  obtain ⟨n, hn⟩ := s.forefront.above_eq_shift k.bound
  exact (hn ▸ habove).of_shift

theorem Chain.satisfies (bounded : k.IsBounded)
    (model : ∀ rule ∈ k.equations, M.Satisfies rule) {n : Nat} (chain : k.Chain s n t)
    (h : M.Satisfies t.forefront) : M.Satisfies s.forefront := by
  induction chain with
  | refl => exact h
  | step _ next ih => exact ih (next.satisfies bounded model h)

/-- **Proofs are sound.** If a chain of successors leads from a target to a state with a trivial
forefront, then the target holds under every assignment in every algebra in which the rules do. -/
theorem target_satisfied (built : k.Built) {target : Statement} {root : ProofState}
    (begins : k.Begins target root) {n : Nat} (chain : k.Chain root n s)
    (trivial : k.isTrivial s.forefront = true) (M : Algebra A)
    (model : ∀ rule ∈ k.equations, M.Satisfies rule) : M.Satisfies target.equation := by
  obtain ⟨-, hfront, -⟩ := begins.start
  have htrivial := M.satisfies_of_isTrivial model trivial
  have hroot := chain.satisfies built.homed.bounded model htrivial
  rwa [hfront] at hroot

/-- Negation of truth values is an involution, and so it gives back what it is applied to four
times. -/
theorem target_satisfied_not :
    (⟨fun _ => false, fun _ args => args.all (!·)⟩ : Algebra Bool).Satisfies
      ⟨.app 0 [.app 0 [.app 0 [.app 0 [.var 0]]]], .var 0⟩ := by
  obtain ⟨root, s, hbegins, hchain, _, htrivial⟩ := exists_chain_involution {}
  refine target_satisfied (built_involution {}) hbegins hchain htrivial _ ?_
  intro rule hrule v
  obtain rfl := List.mem_singleton.1 (equations_involution {} ▸ hrule)
  show (!(!v 0 && true) && true) = v 0
  cases v 0 <;> rfl

end Kernel

end Equational
