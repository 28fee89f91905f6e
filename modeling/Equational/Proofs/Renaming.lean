import Equational.Proofs.Collecting
import Equational.Proofs.Equivalence

/-!
# Rewriting does not depend on the names of variables

A variant of an equation comes from it by renaming its variables and perhaps reading it
from right to left. The renaming need not be one-to-one. Whatever one rewrite makes of an
equation, one rewrite makes a variant of it of each variant of the equation. If the
renaming is one-to-one then so is the one between the results: one rewrite makes
equivalent equations of equivalent equations.
-/

namespace Equational

/-! ### Variants -/

namespace Equation

/-- The equation comes from the other one by renaming variables, in one of the orientations. -/
def IsVariantOf (f e : Equation) : Prop := ∃ ρ, e.rename ρ = f ∨ e.transpose.rename ρ = f

theorem isVariantOf_of_equivalent {a b : Equation} (h : a.equivalent b = true) :
    a.IsVariantOf b := by
  obtain ⟨ρ, -, hρ⟩ := equivalent_iff.1 (equivalent_symm h)
  refine ⟨ρ, hρ.imp_right fun hρ => ?_⟩
  rw [rename_transpose, hρ, transpose_transpose]

end Equation

/-! ### Rewriting a variant -/

namespace Equation

variable {rules : List Equation} {constants : List Nat} {w e : Equation}

theorem Applies.rename {rule : Equation} {t u : Term} {σ : Nat → Term}
    (h : rule.Applies (Candidate.listed w constants) t u σ) (θ : Nat → Nat) :
    rule.Applies (Candidate.listed (w.rename θ) constants) (t.rename θ) (u.rename θ)
      fun id => (σ id).rename θ := by
  refine ⟨?_, fun id hid hout => ?_, ?_⟩
  · rw [← h.found]
    exact (rule.lhs.bind_bind σ _).symm
  · obtain ⟨c, hc, hσ⟩ := h.chosen id hid hout
    rw [hσ]
    rcases Candidate.mem_listed.1 hc with ⟨i, hi, rfl⟩ | ⟨symbol, hsymbol, rfl⟩
    · have hθ : θ i ∈ (w.rename θ).vars :=
        mem_vars_bind.2 ⟨i, hi, Term.mem_vars_var.2 rfl⟩
      exact ⟨.free (θ i), Candidate.mem_listed.2 (.inl ⟨θ i, hθ, rfl⟩), rfl⟩
    · exact ⟨.const symbol, Candidate.mem_listed.2 (.inr ⟨symbol, hsymbol, rfl⟩), rfl⟩
  · rw [← h.result]
    exact (rule.rhs.bind_bind σ _).symm

theorem Rewrites.rename (h : w.Rewrites rules constants e) (θ : Nat → Nat) :
    (w.rename θ).Rewrites rules constants (e.rename θ) := by
  obtain @⟨site, rule, σ, u, here, known, applies⟩ := h
  have hstep := Rewrites.intro (bind_mem_sites (fun id => .var (θ id)) here) known
    (applies.rename θ)
  rwa [Equation.rename, bind_replaceAt _ here]

theorem Rewrites.transpose (h : w.Rewrites rules constants e) :
    w.transpose.Rewrites rules constants e.transpose := by
  obtain @⟨site, rule, σ, u, here, known, applies⟩ := h
  have happlies :
      rule.Applies (Candidate.listed w.transpose constants) site.occurrence.term u σ := by
    refine ⟨applies.found, fun id hid hout => ?_, applies.result⟩
    obtain ⟨c, hc, hσ⟩ := applies.chosen id hid hout
    refine ⟨c, Candidate.mem_listed.2 ((Candidate.mem_listed.1 hc).imp_left ?_), hσ⟩
    exact fun ⟨i, hi, hi'⟩ => ⟨i, mem_vars_transpose.2 hi, hi'⟩
  rw [transpose_replaceAt]
  exact .intro (transpose_mem_sites here) known happlies

/-- However far an equation was shifted, a renaming takes it to a renamed equation moved above the
rules, and what one rewrite makes of the one to what one rewrite makes of the other. -/
theorem Rewrites.exists_rename_above {n : Nat} {next : Equation}
    (h : (e.shift n).Rewrites rules constants next) (bound : Nat) (ρ : Nat → Nat) :
    ∃ θ, ((e.rename ρ).above bound).Rewrites rules constants (next.rename θ) ∧
      (Set.InjOn ρ {id | id ∈ e.vars} → Set.InjOn θ {id | id ∈ next.vars}) := by
  obtain ⟨m, hm⟩ := (e.rename ρ).above_eq_shift bound
  let θ : Nat → Nat := fun id => ρ (id - n) + m
  have hshift : (e.shift n).rename θ = (e.rename ρ).above bound := by
    rw [hm, shift_eq_bind, shift_eq_bind, Equation.rename, Equation.rename, bind_bind, bind_bind]
    refine bind_congr fun id _ => ?_
    simp only [Term.bind_var, θ, Nat.add_sub_cancel]
  refine ⟨θ, hshift ▸ h.rename θ, fun hinj id hid id' hid' heq => ?_⟩
  obtain ⟨i, hi, rfl⟩ := mem_vars_shift.1 (h.mem_vars hid)
  obtain ⟨j, hj, rfl⟩ := mem_vars_shift.1 (h.mem_vars hid')
  simp only [θ, Nat.add_sub_cancel, Nat.add_right_cancel_iff] at heq
  rw [hinj hi hj heq]

/-- **Rewriting variants.** What one rewrite makes of an equation moved above the rules, one rewrite
makes of each variant moved above them, up to a variant. -/
theorem Rewrites.exists_variant {bound : Nat} {next f : Equation}
    (h : (e.above bound).Rewrites rules constants next) (variant : f.IsVariantOf e) :
    ∃ next', (f.above bound).Rewrites rules constants next' ∧ next'.IsVariantOf next := by
  obtain ⟨n, hn⟩ := e.above_eq_shift bound
  rw [hn] at h
  obtain ⟨ρ, rfl | rfl⟩ := variant
  · obtain ⟨θ, hθ, -⟩ := h.exists_rename_above bound ρ
    exact ⟨next.rename θ, hθ, θ, .inl rfl⟩
  · obtain ⟨θ, hθ, -⟩ := Rewrites.exists_rename_above (e := e.transpose) h.transpose bound ρ
    exact ⟨next.transpose.rename θ, hθ, θ, .inr rfl⟩

/-- **Rewriting equivalent equations.** What one rewrite makes of an equation moved above the rules,
one rewrite makes of each equivalent one moved above them, up to equivalence. -/
theorem Rewrites.exists_equivalent {bound : Nat} {next f : Equation}
    (h : (e.above bound).Rewrites rules constants next) (equivalent : e.equivalent f = true) :
    ∃ next', (f.above bound).Rewrites rules constants next' ∧ next.equivalent next' = true := by
  obtain ⟨n, hn⟩ := e.above_eq_shift bound
  rw [hn] at h
  obtain ⟨ρ, hinj, rfl | hρ⟩ := equivalent_iff.1 equivalent
  · obtain ⟨θ, hθ, hinjθ⟩ := h.exists_rename_above bound ρ
    exact ⟨next.rename θ, hθ, equivalent_iff.2 ⟨θ, hinjθ hinj, .inl rfl⟩⟩
  · obtain rfl : e.transpose.rename ρ = f := by rw [rename_transpose, hρ, transpose_transpose]
    obtain ⟨θ, hθ, hinjθ⟩ :=
      Rewrites.exists_rename_above (e := e.transpose) h.transpose bound ρ
    have hinj' : Set.InjOn ρ {id | id ∈ e.transpose.vars} :=
      hinj.mono fun id hid => mem_vars_transpose.1 hid
    have hinjNext : Set.InjOn θ {id | id ∈ next.vars} :=
      (hinjθ hinj').mono fun id hid => mem_vars_transpose.2 hid
    exact ⟨next.transpose.rename θ, hθ, equivalent_iff.2 ⟨θ, hinjNext, .inr rfl⟩⟩

end Equation

end Equational
