import Equational.Proofs.Depth
import Equational.Proofs.Freshness

/-!
# No step brings in new variables

The forefront of a successor has no variables but those of the equation that was rewritten, which
is the forefront before it, moved above the rules. Only the target ever has to be moved: what
comes of it stays above the rules, where no rule has a variable. So the variables of the equations
on a path become fewer and fewer, and all of them are those of the target moved above the rules.
-/

namespace Equational

namespace ProofState.IsParent

variable {s next : ProofState}

theorem tail_path (h : s.IsParent next) : next.path.tail = s.path.tail ++ [next.forefront] := by
  rw [h.path, List.tail_append_of_ne_nil (by simp [ProofState.path, ProofState.stages])]

theorem parent?_eq (h : s.IsParent next) : next.parent? = some s := by
  obtain ⟨hctx, hearlier⟩ := h
  rw [parent?, hearlier]
  dsimp only
  rw [hctx]

end ProofState.IsParent

namespace Kernel

variable {k : Kernel} {root s t : ProofState} {n : Nat}

/-- What one step or more lead to is above the rules. -/
theorem Chain.le_of_mem_vars (bounded : k.IsBounded) (chain : k.Chain root (n + 1) s) {id : Nat}
    (hid : id ∈ s.forefront.vars) : k.bound ≤ id := by
  cases chain with
  | step chain next => exact Equation.le_of_mem_above (next.mem_vars bounded hid)

/-- **Along a chain** the variables become fewer: those of the last forefront are variables of every
equation after the first one, and of the first one moved above the rules. -/
theorem Chain.mem_vars_of_mem_path (bounded : k.IsBounded)
    (hroot : root.path = [root.forefront]) (chain : k.Chain root n s) :
    ∀ e ∈ root.forefront.above k.bound :: s.path.tail,
      ∀ id ∈ (s.forefront.above k.bound).vars, id ∈ e.vars := by
  induction chain with
  | refl =>
    rw [hroot]
    intro e he id hid
    obtain rfl := List.mem_singleton.1 he
    exact hid
  | @step n t u chain next ih =>
    intro e he id hid
    rw [Equation.above_eq_self fun _ => (chain.step next).le_of_mem_vars bounded] at hid
    rw [next.isParent.tail_path, ← List.cons_append, List.mem_append] at he
    rcases he with he | he
    · exact ih e he id (next.mem_vars bounded hid)
    · obtain rfl := List.mem_singleton.1 he
      exact hid

theorem Chain.pairwise_vars (bounded : k.IsBounded)
    (hroot : root.path = [root.forefront]) (chain : k.Chain root n s) :
    (root.forefront.above k.bound :: s.path.tail).Pairwise fun e f =>
      ∀ id ∈ f.vars, id ∈ e.vars := by
  induction chain with
  | refl =>
    rw [hroot]
    exact List.pairwise_singleton _ _
  | @step n t u chain next ih =>
    rw [next.isParent.tail_path, ← List.cons_append, List.pairwise_append]
    refine ⟨ih, List.pairwise_singleton _ _, ?_⟩
    intro e he f hf id hid
    obtain rfl := List.mem_singleton.1 hf
    exact chain.mem_vars_of_mem_path bounded hroot e he id (next.mem_vars bounded hid)

/-- **No step brings in new variables.** Let some steps lead from a target to a state. The variables
of its forefront are above those of all rules. After one step they are variables of the target
moved above the rules, and after more steps they are variables of the forefront before. So along
the whole path the variables become fewer and fewer. -/
theorem path_gains_no_variables {target : Statement} (built : k.Built)
    (begins : k.Begins target root) (follows : k.Follows root s) (moved : 0 < s.depth) :
    (∀ id ∈ s.forefront.freeIds.keys,
        k.bound ≤ id ∧ ∀ rule ∈ k.equations, id ∉ rule.freeIds.keys) ∧
      (s.depth = 1 →
        s.forefront.freeIds.keys ⊆ (target.equation.above k.bound).freeIds.keys) ∧
      (1 < s.depth → ∃ parent, s.parent? = some parent ∧
        s.forefront.freeIds.keys ⊆ parent.forefront.freeIds.keys) ∧
      (target.equation.above k.bound :: s.path.tail).Pairwise fun e f =>
        f.freeIds.keys ⊆ e.freeIds.keys := by
  obtain ⟨hctx, hfront, hroot, hdepth⟩ := begins.start
  obtain ⟨steps, chain⟩ := follows.exists_chain built.homed hctx
  have hsteps := chain.depth_eq
  have hpairwise := chain.pairwise_vars built.homed.bounded hroot
  simp only [List.subset_def, Equation.mem_keys_freeIds]
  rw [← hfront]
  cases chain with
  | refl => omega
  | @step n t _ chain next =>
    have hvars : ∀ {id}, id ∈ s.forefront.vars → id ∈ (t.forefront.above k.bound).vars :=
      next.mem_vars built.homed.bounded
    refine ⟨fun id hid => ?_, fun hone _ hid => ?_, fun hmore => ⟨t, ?_, fun hid => ?_⟩, hpairwise⟩
    · have hbound := Equation.le_of_mem_above (hvars hid)
      exact ⟨hbound, fun rule hrule hid' =>
        Nat.not_lt.2 hbound (built.homed.bounded rule hrule id hid')⟩
    · obtain rfl : n = 0 := by omega
      cases chain
      exact hvars hid
    · exact next.isParent.parent?_eq
    · -- the forefront before was not moved
      obtain ⟨m, rfl⟩ : ∃ m, n = m + 1 := ⟨n - 1, by omega⟩
      have hid := hvars hid
      rwa [Equation.above_eq_self fun _ => chain.le_of_mem_vars built.homed.bounded] at hid

/-- Two steps after a sixfold involution, which is moved by one before it is rewritten. -/
theorem path_gains_no_variables_sixfold :
    ∃ root s parent : ProofState, (involution {}).Begins .sixfold root ∧
      (involution {}).Chain root 2 s ∧ s.parent? = some parent ∧
      s.forefront.freeIds.keys = [1] ∧
      s.forefront.freeIds.keys ⊆ parent.forefront.freeIds.keys ∧
      (∀ id ∈ s.forefront.freeIds.keys, (involution {}).bound ≤ id) := by
  have hbuilt := built_involution {}
  have hbegins : ∃ root, (involution {}).Begins .sixfold root := ⟨_, {}, _, rfl⟩
  obtain ⟨root, hbegins⟩ := hbegins
  obtain ⟨hctx, -, -, hdepth⟩ := hbegins.start
  have hroom := hasRoom_sixfold {}
  have hfirst := mem_expansions_involution (e := Statement.sixfold.equation)
    (t := .app 0 [.app 0 [.app 0 [.app 0 [.var 1]]]]) (r := .var 1) {} (by decide +kernel)
  obtain ⟨t, hchain, htfront⟩ :=
    exists_first_step hbuilt.homed hbegins hroom hfirst (by decide +kernel)
  have htctx := hchain.ctx hctx
  have htroom := HasRoom.chain hbuilt.homed.bounded (hbegins.start.2.1.symm ▸ hroom) hchain
  have hsecond : ⟨.app 0 [.app 0 [.var 1]], .var 1⟩ ∈ (involution {}).expected t := by
    show _ ∈ (involution {}).expansions t.ctx t.forefront
    rw [htctx, htfront]
    exact mem_expansions_involution {} (by decide +kernel)
  obtain ⟨s, hnext, hsfront⟩ := exists_successor hbuilt.homed htctx htroom hsecond
  have hchain' := hchain.step hnext
  have hsdepth : s.depth = 2 := by rw [hchain'.depth_eq, hdepth]
  obtain ⟨hbound, -, hparent, -⟩ :=
    path_gains_no_variables hbuilt hbegins hchain'.follows (by omega)
  obtain ⟨parent, hparent, hsub⟩ := hparent (by omega)
  refine ⟨root, s, parent, hbegins, hchain', hparent, ?_, hsub, fun id hid => (hbound id hid).1⟩
  rw [hsfront]
  decide +kernel

end Kernel

end Equational
