import Equational.Proofs.Moves
import Equational.Proofs.Resolution
import Equational.Settings

/-!
# Settings without a fault can be carried out

Settings are looked through for faults once, when they are read. Later each part of a solver checks
what it is made with: the heuristic its parameters, the plan and the strategy theirs, and the
solver its depths. The two agree, so a solver can be made of settings without a fault, and it is the
one that the settings ask for.

From there on nothing fails either. The plan of such a solver is total, and the variables of axioms
and targets that were read are numbered from zero on, so there is room for the rewrites unless the
texts are longer than any memory. So setting the targets succeeds, and so does every step after it.
-/

namespace Equational

/-- A demand that is met changes nothing. -/
theorem require_bind {α : Type} {condition : Bool} {cause : Violation} (met : condition = true)
    (next : Unit → Checked α) : require condition cause >>= next = next () := by
  rw [met]
  rfl

namespace Stopping

theorem of_fault?_fixed {size : Nat} (sound : (fixed size).fault? = none) : 1 ≤ size := by
  rw [fault?] at sound
  split at sound
  next => cases sound
  next hsize => omega

theorem of_fault?_basic {fill : Nat} {lambda alpha : Float32}
    (sound : (basic fill lambda alpha).fault? = none) :
    1 < fill ∧ lambda > 0 ∧ alpha > 0 ∧ alpha < 1 := by
  rw [fault?] at sound
  split at sound
  next => cases sound
  next hfill =>
    split at sound
    next => cases sound
    next hlambda =>
      split at sound
      next => cases sound
      next halpha =>
        simp only [Bool.not_eq_true', decide_eq_false_iff_not, Decidable.not_not] at hlambda
        simp only [Bool.not_eq_true', Bool.not_eq_false, Bool.and_eq_true, decide_eq_true_eq]
          at halpha
        exact ⟨Nat.lt_of_not_le hfill, hlambda, halpha⟩

theorem exists_start {stopping : Stopping} (sound : stopping.fault? = none) :
    ∃ strategy, stopping.start = .ok strategy := by
  cases stopping with
  | fixed size =>
    have hsize := of_fault?_fixed sound
    refine ⟨.fixed { size }, ?_⟩
    rw [start, FixedStrategy.make, require_bind (decide_eq_true hsize)]
    rfl
  | basic fill lambda alpha =>
    obtain ⟨hfill, hlambda, halpha⟩ := of_fault?_basic sound
    refine ⟨.basic { lambda := lambda.toFloat, alpha := alpha.toFloat, fillLeft := fill }, ?_⟩
    rw [start, BasicStrategy.make, require_bind (decide_eq_true hfill),
      require_bind (decide_eq_true hlambda), require_bind (by simpa using halpha)]
    rfl

end Stopping

namespace Settings

variable {s : Settings}

/-- The plan that the settings ask for. -/
def plan (s : Settings) : Plan :=
  { heuristic := s.heuristic.map EditDistance.heuristic, stopping := s.stopping }

/-- The solver that the settings ask for, with the depths given or with the usual ones. -/
def solver (s : Settings) : Solver :=
  { plan := s.plan
    maxDepth := (s.depths.getD {}).max
    startingDepth := (s.depths.getD {}).starting }

theorem fault?_eq_none_iff :
    s.fault? = none ↔ s.seedFault? = none ∧ s.stepsFault? = none ∧ s.depthsFault? = none ∧
      s.heuristicFault? = none ∧ s.stoppingFault? = none := by
  simp [fault?, Option.or_eq_none_iff]

theorem stepSize_pos (sound : s.stepsFault? = none) : 0 < s.stepSize := by
  rw [stepsFault?] at sound
  split at sound
  next => cases sound
  next hsteps =>
    simp only [Bool.or_eq_true, decide_eq_true_eq, not_or] at hsteps
    omega

theorem makeHeuristic_eq (sound : s.heuristicFault? = none) :
    s.makeHeuristic = .ok (s.heuristic.map EditDistance.heuristic) := by
  rw [heuristicFault?] at sound
  rw [makeHeuristic]
  cases hheuristic : s.heuristic with
  | none => rfl
  | some h =>
    rw [hheuristic] at sound
    dsimp only at sound ⊢
    split at sound
    next hpositive =>
      simp only [Bool.and_eq_true] at hpositive
      rw [EditDistance.make, require_bind hpositive.1, require_bind hpositive.2]
      rfl
    next => cases sound

theorem stopping_sound (sound : s.stoppingFault? = none) {stopping : Stopping}
    (chosen : s.stopping = some stopping) : stopping.fault? = none := by
  rw [stoppingFault?, chosen] at sound
  dsimp only at sound
  split at sound
  next => cases sound
  next => exact Option.map_eq_none_iff.1 sound

theorem makePlan_eq (heuristic : s.heuristicFault? = none) (stopping : s.stoppingFault? = none) :
    s.makePlan = .ok s.plan := by
  rw [makePlan, makeHeuristic_eq heuristic, plan]
  cases hstopping : s.stopping with
  | none => rfl
  | some chosen =>
    have hsound := stopping_sound stopping hstopping
    cases chosen with
    | fixed size =>
      show Plan.setFixed _ size = _
      rw [Plan.setFixed, require_bind (decide_eq_true (Stopping.of_fault?_fixed hsound))]
      rfl
    | basic fill lambda alpha =>
      show Plan.setBasic _ fill lambda alpha = _
      obtain ⟨hfill, hlambda, hpositive, hbelow⟩ := Stopping.of_fault?_basic hsound
      rw [Plan.setBasic, require_bind (by simp [hfill, hlambda, hpositive, hbelow])]
      rfl

theorem make_eq_solver (sound : s.depthsFault? = none) :
    Solver.make s.plan s.solver.maxDepth s.solver.startingDepth = .ok s.solver := by
  suffices hdepths : 0 < s.solver.startingDepth ∧ s.solver.startingDepth < s.solver.maxDepth from
    Solver.make_eq_ok_iff.2 ⟨hdepths.1, hdepths.2, rfl⟩
  rw [depthsFault?] at sound
  rw [solver]
  cases hdepths : s.depths with
  | none =>
    show 0 < 3 ∧ 3 < 10
    decide
  | some d =>
    rw [hdepths] at sound
    dsimp only at sound
    split at sound
    next => cases sound
    next hfault =>
      simp only [Bool.or_eq_true, decide_eq_true_eq, not_or] at hfault
      exact ⟨Nat.not_lt.1 hfault.1, Nat.not_le.1 hfault.2⟩

theorem makeSolver_eq (valid : s.fault? = none) : s.makeSolver = .ok s.solver := by
  obtain ⟨-, -, hdepths, hheuristic, hstopping⟩ := fault?_eq_none_iff.1 valid
  rw [makeSolver, makePlan_eq hheuristic hstopping]
  exact make_eq_solver hdepths

theorem isTotal_plan (sound : s.stoppingFault? = none) : s.plan.IsTotal := by
  intro h stopping hheuristic hstopping
  obtain ⟨distance, -, rfl⟩ := Option.map_eq_some_iff.1 hheuristic
  exact ⟨distance.isTotal_heuristic, Stopping.exists_start (stopping_sound sound hstopping)⟩

end Settings

namespace Solver

/-- Sets the targets, then takes a number of steps of one size. -/
def session (k : Kernel) (targets : List Statement) (size : Nat) :
    (steps : Nat) → Changes Solver Unit
  | 0 => setTargets k targets
  | steps + 1 => do
    session k targets size steps
    step k size

theorem meets_session {k : Kernel} {plan : Plan} {maxDepth startingDepth size : Nat}
    {targets : List Statement} {s : Solver} (homed : k.IsHomed)
    (made : make plan maxDepth startingDepth = .ok s) (safe : AreSafe k plan targets)
    (nonempty : targets ≠ []) (accepted : ∀ target ∈ targets, k.Accepts target)
    (positive : 0 < size) (steps : Nat) :
    (session k targets size steps).Meets k.rules False s fun _ s' =>
      s'.Grants k plan maxDepth startingDepth targets (steps * size) := by
  induction steps with
  | zero =>
    rw [Nat.zero_mul]
    exact meets_setTargets_grants homed made (.inr safe) (.inr ⟨nonempty, accepted⟩)
  | succ steps ih =>
    refine ih.bind fun _ s' hgrants => ?_
    rw [Nat.succ_mul]
    exact hgrants.meets_step homed (.inr safe) positive

end Solver

namespace Kernel

variable {k : Kernel} {ctx : Context} {options : KernelOptions}

theorem of_read_ctx (read : Kernel.read ctx options = .ok k) : k.ctx = ctx := by
  obtain ⟨axioms, -, hbuilt⟩ := exists_of_read read
  obtain ⟨-, hrebuilt⟩ := ofAxioms_eq_ok_iff.1 hbuilt
  obtain ⟨_, -, rfl⟩ := rebuilt_eq_ok_iff.1 hrebuilt
  rfl

theorem bound_le_of_read (read : Kernel.read ctx options = .ok k) :
    k.bound ≤ ("\n".intercalate ctx.axioms).length := by
  obtain ⟨axioms, hread, hbuilt⟩ := exists_of_read read
  obtain ⟨-, hrebuilt⟩ := ofAxioms_eq_ok_iff.1 hbuilt
  obtain ⟨rfl, -⟩ := of_rebuilt_ok hrebuilt
  refine (isLeast_leastAbove _).2 fun s hs id hid => ?_
  exact Statement.lt_length_of_readSource hread ((List.append_nil axioms) ▸ hs) hid

theorem hasRoom_of_readSource (read : Kernel.read ctx options = .ok k) {text : String}
    {targets : List Statement} (parsed : Statement.readSource ctx text = .ok targets)
    (short : 2 * (("\n".intercalate ctx.axioms).length + text.length) ≤ DenseMap.limit)
    {target : Statement} (mem : target ∈ targets) : k.HasRoom target.equation := by
  have hbound := bound_le_of_read read
  have hlimit : DenseMap.limit < UInt64.size := by decide
  have habove : ∀ id ∈ (target.equation.above k.bound).vars, id < k.bound + text.length :=
    fun id hid => Equation.lt_of_mem_above
      (fun _ => Statement.lt_length_of_readSource parsed mem) hid
  have hopen : ∀ id ∈ k.openIds, id < k.bound := by
    intro id hid
    obtain ⟨e, he, hid⟩ := List.mem_flatMap.1 hid
    exact (Built.read read).homed.bounded e he id (Equation.mem_vars_of_mem_openIds hid)
  refine ⟨fun id hid => ?_, fun i _ j hj => ?_⟩
  · have hid := habove id hid
    omega
  · rcases List.mem_append.1 hj with hj | hj
    · have hj := hopen j hj
      omega
    · have hj := habove j hj
      omega

end Kernel

namespace Settings

/-- Settings without a fault are carried out: the solver is made, and unless the texts of the axioms
and the targets are longer than any memory it takes the targets and every number of steps, whatever
was drawn from the source before. -/
theorem session_succeeds {settings : Settings} (valid : settings.fault? = none) {ctx : Context}
    {clock : UInt64} {k : Kernel} (read : Kernel.read ctx (settings.kernelOptions clock) = .ok k)
    {text : String} {targets : List Statement}
    (parsed : Statement.readSource ctx text = .ok targets) (nonempty : targets ≠ []) :
    settings.makeSolver = .ok settings.solver ∧
      (2 * (("\n".intercalate ctx.axioms).length + text.length) ≤ DenseMap.limit →
      ∀ (source : Source) (steps : Nat), source.rules = k.rules → ∃ s source',
        ((Solver.session k targets settings.stepSize steps).runOn settings.solver).run source =
          ((.ok (), s), source')) := by
  refine ⟨makeSolver_eq valid, fun short source steps hfixed => ?_⟩
  obtain ⟨-, hsteps, hdepths, -, hstopping⟩ := fault?_eq_none_iff.1 valid
  have hroom : ∀ target ∈ targets, k.HasRoom target.equation :=
    fun target mem => Kernel.hasRoom_of_readSource read parsed short mem
  have haccepted : ∀ target ∈ targets, k.Accepts target := by
    intro target mem
    refine ⟨?_, (hroom target mem).narrow_vars⟩
    rw [Statement.ctx_of_mem_readSource parsed mem, Kernel.of_read_ctx read, Kernel.same_self]
    rfl
  have hmeets := Solver.meets_session (Kernel.Built.read read).homed (make_eq_solver hdepths)
    ⟨isTotal_plan hstopping, hroom⟩ nonempty haccepted (stepSize_pos hsteps) steps
  obtain ⟨_, s, source', hrun, -⟩ := hmeets.exists_runOn id hfixed
  exact ⟨s, source', hrun⟩

/-- Random order, the edit distance, and a strategy that estimates what is to come. -/
def guessing : Settings :=
  { stepSize := 7
    randomised := true
    depths := some { max := 4, starting := 2 }
    heuristic := some ⟨1, 2⟩
    stopping := some (.basic 2 1 0.5) }

theorem session_succeeds_guessing :
    ∃ new, guessing.makeSolver = .ok new ∧ ∀ clock steps, ∃ s source',
      ((Solver.session (.involution (guessing.kernelOptions clock)) Solver.involutionTargets 7
        steps).runOn new).run (Kernel.involution (guessing.kernelOptions clock)).source =
          ((.ok (), s), source') := by
  have hvalid : guessing.fault? = none := by decide +kernel
  have hparsed : Statement.readSource .involution "i(i(i(i(x)))) = x\ni(x) = x" =
      .ok Solver.involutionTargets := toOption_eq_some.1 (by decide +kernel)
  have hsucceeds : ∀ clock, _ := fun clock => session_succeeds hvalid
    (Kernel.read_involution (guessing.kernelOptions clock)) hparsed (List.cons_ne_nil _ _)
  exact ⟨_, (hsucceeds 0).1, fun clock steps => (hsucceeds clock).2 (by decide) _ steps rfl⟩

end Settings

end Equational
