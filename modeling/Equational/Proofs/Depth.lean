import Equational.Proofs.Moves

/-!
# Deep proofs are shortest proofs

A search goes depth first, so a proof that it finds within the depth it starts with need not
be a shortest one. The limit is raised only when everything within the limit before was
searched through. So a proof that is deeper than the starting depth lies at the limit, and
nothing trivial can be reached in fewer steps.
-/

namespace Equational

namespace Search

variable {g : Guidance} {start n : Nat} {target : Statement} {x : Search}

/-- When the limit was raised, everything within the limit before was searched through. -/
theorem After.searched_before (homed : g.kernel.IsHomed) (positive : 0 < start)
    (h : After g start target n x) (raised : start < x.limit) :
    g.kernel.Searched true (x.limit - 1) x.root.path x.root.forefront := by
  refine h.of_moves homed positive (.inl trivial) (P := fun _ x => start < x.limit →
    g.kernel.Searched true (x.limit - 1) x.root.path x.root.forefront) ?_ ?_ ?_ ?_ raised
  · intro root _ _ hraised
    exact absurd hraised (Nat.lt_irrefl start)
  · intro root cursor _ _ _ hraised
    exact absurd hraised (Nat.lt_irrefl start)
  · intro n x _ ih
    exact ih
  · intro n x y events sound going ih moves
    cases moves with
    | fail => exact ih
    | raise empty cut below opened =>
      -- a pass has come to its end: the stack is empty
      intro _
      have hunder := sound.underWay (isDone_eq_false.1 going)
      rw [IsUnderWay, empty] at hunder
      exact hunder.cutOff
    | leave => exact ih
    | prove takes => cases takes; exact ih
    | enter takes => cases takes; exact ih
    | cut takes => cases takes; exact ih

/-- The stored proof is at the limit if it is deeper than the search started, and then nothing
trivial can be reached in fewer steps. -/
theorem After.depth_of_proof (homed : g.kernel.IsHomed) (positive : 0 < start)
    (h : After g start target n x) {proof : ProofState} (proven : x.verdict = .proven)
    (stored : x.proof = some proof) (deep : start < proof.depth) :
    proof.depth = x.limit ∧ ∀ root t m, g.kernel.Begins target root → g.kernel.Chain root m t →
      m < proof.depth → g.kernel.isTrivial t.forefront = false := by
  have hsound := h.isSound homed positive (.inl trivial)
  obtain ⟨root, proof', d, hbegins, hstored, hchain, hwithin, htrivial⟩ :=
    hsound.answers.proven proven
  obtain rfl : proof = proof' := Option.some.inj (stored.symm.trans hstored)
  have hdepth : proof.depth = d := by
    rw [hchain.depth_eq, hbegins.start.2.2.2, Nat.zero_add]
  have hsearched := h.searched_before homed positive (by omega)
  obtain ⟨-, hfront, hpath, -⟩ := hsound.begins.start
  rw [hpath, hfront] at hsearched
  -- All states that start a proof of the target have the same equation and nothing before it.
  have hnone : ∀ root t m, g.kernel.Begins target root → g.kernel.Chain root m t →
      m ≤ x.limit - 1 → g.kernel.isTrivial t.forefront = false := by
    intro root t m hbegins hchain hm
    obtain ⟨hctx, hfront, hpath, -⟩ := hbegins.start
    rw [← hfront, ← hpath] at hsearched
    exact (hsearched.chain homed.bounded hctx hchain hm).not_trivial
  have hlimit : proof.depth = x.limit := by
    by_contra hne
    have hopen := hnone root proof d hbegins hchain (by omega)
    rw [hopen] at htrivial
    cases htrivial
  exact ⟨hlimit, fun root t m hbegins hchain hm => hnone root t m hbegins hchain (by omega)⟩

end Search

namespace Solver

variable {k : Kernel} {s : Solver} {targets : List Statement}

theorem Reached.after (homed : k.IsHomed) (reached : s.Reached k) (set : s.targets = some targets) :
    List.Forall₂ (fun target x => ∃ n, Search.After (s.guidance k) s.startingDepth target n x)
      targets s.searches := by
  induction reached generalizing targets with
  | make ok =>
    obtain ⟨-, -, rfl⟩ := make_eq_ok_iff.1 ok
    cases set
  | setTargets earlier fixed run _ =>
    have hpositive := (earlier.isSound homed).positive
    obtain ⟨-, searches, stats, -, rfl, hsearches⟩ :=
      (meets_setTargets (fun _ _ => starts_after homed hpositive (.inl trivial))
        (.inl trivial)).of_runOn fixed run
    obtain rfl := Option.some.inj set
    exact hsearches.imp fun _ _ h => ⟨0, h⟩
  | @step s _ count _ _ earlier fixed run ih =>
    have hpositive := (earlier.isSound homed).positive
    obtain ⟨hengaged, hcount, searches, stats, rfl⟩ := of_step_ok run
    have hmoves : ∀ target x,
        (∃ n, Search.After (s.guidance k) s.startingDepth target n x) → ∀ stats,
        (Task.steps (s.guidance k) count).Meets k.rules True ⟨x, stats⟩ fun _ t =>
          ∃ n, Search.After (s.guidance k) s.startingDepth target n t.search := by
      rintro target x ⟨n, hx⟩ stats
      exact (hx.meets_steps (g := s.guidance k) homed hpositive (.inl trivial) count stats).mono
        fun _ _ hy => ⟨n + count, hy⟩
    have hstep := meets_step (Q := fun target x =>
      ∃ n, Search.After (s.guidance k) s.startingDepth target n x) hmoves (ih set) hengaged hcount
    obtain ⟨-, _, _, hsolver, hsearches⟩ := hstep.of_runOn fixed run
    cases hsolver
    exact hsearches
  | clear _ _ => cases set

/-- **Deep proofs are shortest proofs.** Whatever the plan of a solver is, and whatever steps it
took: if a target was proved and the proof is deeper than the depth the search started with, then
the depth is the limit that the search has reached, and no trivial equation can be reached from the
target in fewer steps. -/
theorem Reached.deep_proofs_shortest (built : k.Built) (reached : s.Reached k)
    (set : s.targets = some targets) :
    List.Forall₂ (fun target x => x.verdict = .proven → ∃ proof, x.proof = some proof ∧
      (s.startingDepth < proof.depth → proof.depth = x.limit ∧
        ∀ root t n, k.Begins target root → k.Chain root n t → n < proof.depth →
          k.isTrivial t.forefront = false)) targets s.searches := by
  have hpositive := (reached.isSound built.homed).positive
  refine (reached.after built.homed set).imp ?_
  rintro target x ⟨n, hx⟩ proven
  obtain ⟨-, proof, -, -, hstored, -⟩ :=
    (hx.isSound built.homed hpositive (.inl trivial)).answers.proven
    proven
  refine ⟨proof, hstored, fun deep => ?_⟩
  exact hx.depth_of_proof built.homed hpositive proven hstored deep

/-- The search for a proof of two steps, which starts with proofs of one step. -/
def sixfoldRun : (Checked Unit × Solver) × Source :=
  ((do setTargets (.involution {}) [.sixfold]; step (.involution {}) 30 :
    Changes Solver Unit).runOn { plan := {}, maxDepth := 3, startingDepth := 1 }).run
      (Kernel.involution {}).source

/-- The proof of two steps is a shortest one. -/
theorem deep_proofs_shortest_sixfold :
    ∃ (s : Solver) (x : Search) (proof : ProofState), s.Reached (.involution {}) ∧
      s.targets = some [.sixfold] ∧ s.searches = [x] ∧ x.verdict = .proven ∧
      x.proof = some proof ∧ s.startingDepth < proof.depth ∧ proof.depth = x.limit ∧
      ∀ root t n, (Kernel.involution {}).Begins .sixfold root →
        (Kernel.involution {}).Chain root n t → n < proof.depth →
          (Kernel.involution {}).isTrivial t.forefront = false := by
  have hbuilt := Kernel.built_involution {}
  have hmade : make {} 3 1 = .ok { plan := {}, maxDepth := 3, startingDepth := 1 } := rfl
  have hreached : ∀ s source, sixfoldRun = ((.ok (), s), source) → s.Reached (.involution {}) := by
    intro s source hrun
    rw [sixfoldRun] at hrun
    exact reached_setTargets_step hbuilt.homed (.make hmade) rfl hrun
  have hanswer : (match sixfoldRun with
      | ((.ok (), s), _) => (s.targets, s.startingDepth, s.verdicts, s.proofs.map (·.map (·.depth)))
      | ((.error _, _), _) => (none, 0, [], [])) =
      (some [.sixfold], 1, [.proven], [some 2]) := by decide +kernel
  revert hreached hanswer
  rcases sixfoldRun with ⟨⟨cause | ⟨⟩, s⟩, source⟩
  · intro _ hanswer
    cases hanswer
  · intro hreached hanswer
    simp only [Prod.mk.injEq] at hanswer
    obtain ⟨htargets, hstart, hverdicts, hproofs⟩ := hanswer
    have hreached := hreached s source rfl
    have hall := hreached.deep_proofs_shortest hbuilt htargets
    obtain ⟨x, _, hx, hnil, hsearches⟩ := List.forall₂_cons_left_iff.1 hall
    rw [List.forall₂_nil_left_iff] at hnil
    subst hnil
    rw [verdicts, hsearches] at hverdicts
    have hproven : x.verdict = .proven := List.singleton_inj.1 hverdicts
    obtain ⟨proof, hstored, hshort⟩ := hx hproven
    rw [proofs, hsearches] at hproofs
    have hdepth : proof.depth = 2 := by
      simpa [hstored] using hproofs
    have hdeep : s.startingDepth < proof.depth := by omega
    exact ⟨s, x, proof, hreached, htargets, hsearches, hproven, hstored, hdeep, hshort hdeep⟩

end Solver

end Equational
