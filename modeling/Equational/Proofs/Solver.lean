import Equational.Proofs.Search
import Mathlib.Data.List.Forall2

/-!
# The verdicts of a solver are right

A solver is made, is given targets, and takes steps; each of these calls draws on a source
with the rules of the kernel. Of all solvers that come about in this way, the verdicts are
right (`Search.Answers`): a search that ends with a proof has one, and a search that ends
without a proof has gone through everything there is within the greatest depth.

A call that meets a violation leaves the solver half way, and nothing is said about a
solver after such a call.
-/

namespace Equational

/-- A proof of the target can be started: the target is of the kernel's context, or of one that the
kernel's one extends, and its variables are near to each other. -/
def Kernel.Accepts (k : Kernel) (target : Statement) : Prop :=
  (target.ctx.same k.ctx || k.ctx.isExtensionOf target.ctx) = true ∧
    DenseMap.IsNarrow target.equation.vars

namespace Solver

/-- The solvers that come from a new one by calls that succeed, while the rules stay those of the
kernel. -/
inductive Reached (k : Kernel) : Solver → Prop
  | make {plan : Plan} {maxDepth startingDepth : Nat} {s : Solver}
      (ok : make plan maxDepth startingDepth = .ok s) : Reached k s
  | setTargets {s s' : Solver} {targets : List Statement} {source source' : Source}
      (earlier : Reached k s) (fixed : source.rules = k.rules)
      (run : ((setTargets k targets).runOn s).run source = ((.ok (), s'), source')) : Reached k s'
  | step {s s' : Solver} {count : Nat} {source source' : Source} (earlier : Reached k s)
      (fixed : source.rules = k.rules)
      (run : ((step k count).runOn s).run source = ((.ok (), s'), source')) : Reached k s'
  | clear {s : Solver} (earlier : Reached k s) : Reached k s.clear

/-- What holds of a solver after any calls that succeed: the searches are those for the targets. -/
structure IsSound (k : Kernel) (s : Solver) : Prop where
  positive : 0 < s.startingDepth
  searches : ∀ targets, s.targets = some targets →
    List.Forall₂ (Search.IsSound (s.guidance k) True) targets s.searches

variable {k : Kernel} {s s' : Solver} {targets started : List Statement}

/-! ### Setting targets -/

variable {lenient : Prop}

theorem meets_prove {target : Statement} (accepted : lenient ∨ k.Accepts target) :
    (k.prove target).Meets k.rules lenient (k.Begins target) := by
  have hrequire := accepted.imp_right fun h =>
    (⟨(), require_eq_ok.2 h.1⟩ : ∃ u, require _ .foreignTarget = .ok u)
  have hlhs := accepted.imp_right fun h =>
    Term.exists_collect (h.2.mono fun id hid => Equation.mem_vars.2 (.inl hid))
  have hrhs := accepted.imp_right fun h =>
    Term.exists_collect (h.2.mono fun id hid => Equation.mem_vars.2 (.inr hid))
  have hrules : (k.prove target).Meets k.rules lenient fun _ => True :=
    (Draws.meets_liftM hrequire).bind fun _ _ => (Draws.meets_liftM hlhs).bind fun _ _ =>
      (Draws.meets_liftM hrhs).bind fun _ _ => Draws.meets_numbered fun _ => trivial
  intro source hs
  have hmeets := hrules source hs
  revert hmeets
  rcases hrun : (k.prove target).runOn source with ⟨cause | root, source'⟩
  · exact fun h => h
  · exact fun h => ⟨h.1, source, source', hrun⟩

/-- What holds of the search for the target when it is started. If it may fail to start, this has to
be `lenient`. -/
def Starts (k : Kernel) (s : Solver) (lenient : Prop) (P : Statement → Search → Prop)
    (target : Statement) : Prop :=
  ∀ root, k.Begins target root → Task.Ensures (s.guidance k) lenient (Task.start (s.guidance k))
    { root, limit := s.startingDepth } fun _ x => P target x

variable {P Q : Statement → Search → Prop}

theorem meets_begin {target : Statement} (starts : s.Starts k lenient P target)
    (accepted : lenient ∨ k.Accepts target) :
    (begin k target).Meets k.rules lenient s fun _ s' => ∃ (x : Search) (stats : Statistics),
      P target x ∧ s' = { s with stats, searches := s.searches ++ [x] } := by
  refine (Changes.meets_draw (meets_prove accepted)).bind ?_
  rintro root _ ⟨hbegins, rfl⟩
  refine Changes.meets_get.bind ?_
  rintro _ _ ⟨rfl, rfl⟩
  intro source hs
  have hstart := starts root hbegins s.stats source hs
  rw [Changes.runOn_attempt_bind]
  revert hstart
  rcases ((Task.start (s.guidance k)).runOn _).run source with ⟨⟨cause | ⟨⟩, task⟩, source'⟩
  · exact fun h => h
  · exact fun ⟨hs', hx⟩ => ⟨hs', task.search, task.stats, hx, rfl⟩

theorem meets_forM_begin (starts : ∀ target ∈ targets, s.Starts k lenient P target)
    (accepted : lenient ∨ ∀ target ∈ targets, k.Accepts target)
    (h : List.Forall₂ P started s.searches) :
    (targets.forM (begin k)).Meets k.rules lenient s fun _ s' =>
      ∃ (searches : List Search) (stats : Statistics), s' = { s with stats, searches } ∧
        List.Forall₂ P (started ++ targets) searches := by
  induction targets generalizing s started with
  | nil =>
    rw [List.append_nil]
    exact .pure ⟨s.searches, s.stats, rfl, h⟩
  | cons target targets ih =>
    have hfirst := accepted.imp_right fun h => h target List.mem_cons_self
    have hrest := accepted.imp_right fun h t ht => h t (List.mem_cons_of_mem target ht)
    refine (meets_begin (starts target List.mem_cons_self) hfirst).bind ?_
    rintro _ _ ⟨x, stats, hx, rfl⟩
    have hstarted : List.Forall₂ P (started ++ [target]) (s.searches ++ [x]) :=
      List.rel_append h (.cons hx .nil)
    refine (ih (s := { s with stats, searches := s.searches ++ [x] })
      (fun t ht => starts t (List.mem_cons_of_mem target ht)) hrest hstarted).mono ?_
    rintro _ _ ⟨searches, stats', rfl, hsearches⟩
    rw [List.append_assoc] at hsearches
    exact ⟨searches, stats', rfl, hsearches⟩

theorem meets_setTargets (starts : ∀ target ∈ targets, s.Starts k lenient P target)
    (accepted : lenient ∨ targets ≠ [] ∧ ∀ target ∈ targets, k.Accepts target) :
    (setTargets k targets).Meets k.rules lenient s fun _ s' =>
      ∃ (searches : List Search) (stats : Statistics), targets ≠ [] ∧
        s' = { s with targets := some targets, stats, searches } ∧
        List.Forall₂ P targets searches := by
  have hrequire := accepted.imp_right fun h =>
    (⟨(), require_eq_ok.2 (by simpa using h.1)⟩ : ∃ u, require (!targets.isEmpty) .noTargets =
      .ok u)
  refine (Changes.meets_liftM hrequire).bind ?_
  rintro _ _ ⟨hsome, rfl⟩
  have hsome : targets ≠ [] := by simpa using require_eq_ok.1 hsome
  refine (Changes.meets_modify _).bind ?_
  rintro _ _ rfl
  refine (meets_forM_begin (s := { s.clear with targets := some targets }) starts
    (accepted.imp_right And.right) .nil).mono ?_
  rintro _ _ ⟨searches, stats, rfl, hsearches⟩
  exact ⟨searches, stats, hsome, rfl, hsearches⟩

/-! ### Steps -/

theorem run_stepAll_cons (g : Guidance) (count : Nat) (x : Search) (xs : List Search)
    (stats : Statistics) (source : Source) :
    (stepAll g count (x :: xs) stats).run source =
      match ((Task.steps g count).runOn ⟨x, stats⟩).run source with
      | ((.error cause, task), source) =>
        ((.error cause, task.search :: xs, task.stats), source)
      | ((.ok (), task), source) =>
        let ((outcome, xs, stats), source) := (stepAll g count xs task.stats).run source
        ((outcome, task.search :: xs, stats), source) := by
  rw [stepAll, StateT.run_bind]
  rcases ((Task.steps g count).runOn ⟨x, stats⟩).run source with ⟨⟨cause | ⟨⟩, task⟩, source'⟩
  · rfl
  · rfl

/-- What moves make of each search, they make of all searches one after the other. -/
theorem stepAll_meets {g : Guidance} {count : Nat}
    (moves : ∀ target x, P target x → ∀ stats,
      (Task.steps g count).Meets g.kernel.rules lenient ⟨x, stats⟩ fun _ t => Q target t.search)
    {xs : List Search} (h : List.Forall₂ P targets xs) (stats : Statistics) {source : Source}
    (fixed : source.rules = g.kernel.rules) :
    match (stepAll g count xs stats).run source with
    | ((.ok (), xs, _), source) => source.rules = g.kernel.rules ∧ List.Forall₂ Q targets xs
    | ((.error _, _), _) => lenient := by
  induction h generalizing stats source with
  | nil => exact ⟨fixed, .nil⟩
  | @cons target x targets xs hx _ ih =>
    have hsteps := moves target x hx stats source fixed
    rw [run_stepAll_cons]
    revert hsteps
    rcases ((Task.steps g count).runOn ⟨x, stats⟩).run source with ⟨⟨cause | ⟨⟩, task⟩, source₁⟩
    · exact fun hfail => hfail
    · rintro ⟨hfixed, hmoved⟩
      have hrest := ih task.stats hfixed
      revert hrest
      dsimp only
      rcases (stepAll g count xs task.stats).run source₁ with
        ⟨⟨cause | ⟨⟩, ys, stats₂⟩, source₂⟩
      · exact fun hfail => hfail
      · exact fun ⟨hfixed', hrest⟩ => ⟨hfixed', .cons hmoved hrest⟩

/-- Where there are searches and moves to make, a step goes through all searches. -/
theorem runOn_step {count : Nat} (engaged : s.isEngaged = true) (positive : 0 < count)
    (source : Source) :
    ((step k count).runOn s).run source =
      match (stepAll (s.guidance k) count s.searches (s.stats.add .steps 1)).run source with
      | ((outcome, searches, stats), source) =>
        ((outcome, { s with searches, stats }), source) := by
  have hpositive : decide (0 < count) = true := decide_eq_true positive
  rw [step, Changes.runOn_get_bind, engaged, hpositive, Changes.runOn_bind, Changes.runOn_liftM,
    show require true .stepWithoutTargets = .ok () from rfl]
  dsimp only
  rw [Changes.runOn_bind, Changes.runOn_liftM, show require true .stepCount = .ok () from rfl]
  dsimp only
  rw [Changes.runOn_bind, Changes.runOn_lift]
  rcases (stepAll (s.guidance k) count s.searches (s.stats.add .steps 1)).run source with
    ⟨⟨cause | ⟨⟩, searches, stats⟩, source'⟩
  · rfl
  · rfl

theorem meets_step {count : Nat}
    (moves : ∀ target x, P target x → ∀ stats, (Task.steps (s.guidance k) count).Meets k.rules
      lenient ⟨x, stats⟩ fun _ t => Q target t.search)
    (h : List.Forall₂ P targets s.searches) (engaged : s.isEngaged = true) (positive : 0 < count) :
    (step k count).Meets k.rules lenient s fun _ s' =>
      ∃ (searches : List Search) (stats : Statistics), s' = { s with searches, stats } ∧
        List.Forall₂ Q targets searches := by
  intro source fixed
  have hall := stepAll_meets (g := s.guidance k) moves h (s.stats.add .steps 1) fixed
  rw [runOn_step engaged positive]
  revert hall
  rcases (stepAll (s.guidance k) count s.searches (s.stats.add .steps 1)).run source with
    ⟨⟨cause | ⟨⟩, searches, stats⟩, source'⟩
  · exact fun hfail => hfail
  · exact fun ⟨hfixed, hsearches⟩ => ⟨hfixed, searches, stats, rfl, hsearches⟩

/-- A step that succeeds had searches and moves to make, and changes nothing but the searches and
the counters. -/
theorem of_step_ok {count : Nat} {source source' : Source}
    (run : ((step k count).runOn s).run source = ((.ok (), s'), source')) :
    s.isEngaged = true ∧ 0 < count ∧
      ∃ (searches : List Search) (stats : Statistics), s' = { s with searches, stats } := by
  have hall := run
  obtain ⟨_, _, _, hget, run⟩ := Changes.exists_of_runOn_bind run
  cases hget
  obtain ⟨_, hengaged, run⟩ := Changes.exists_of_runOn_liftM_bind run
  obtain ⟨_, hpositive, -⟩ := Changes.exists_of_runOn_liftM_bind run
  have hengaged := require_eq_ok.1 hengaged
  have hpositive := of_decide_eq_true (require_eq_ok.1 hpositive)
  rw [runOn_step hengaged hpositive] at hall
  exact ⟨hengaged, hpositive, _, _, (congrArg (fun r => r.1.2) hall).symm⟩

theorem starts_isSound (homed : k.IsHomed) (positive : 0 < s.startingDepth) (target : Statement) :
    s.Starts k True (Search.IsSound (s.guidance k) True) target :=
  fun _ begins => Task.ensures_start (g := s.guidance k) homed (.inl trivial) begins positive

/-- **One call** keeps a solver sound, and so do all calls. -/
theorem Reached.isSound (homed : k.IsHomed) (reached : s.Reached k) : s.IsSound k := by
  induction reached with
  | make ok =>
    obtain ⟨_, hpositive, ok⟩ := bind_eq_ok.1 ok
    obtain ⟨_, _, ok⟩ := bind_eq_ok.1 ok
    obtain rfl := Except.ok.inj ok
    exact ⟨of_decide_eq_true (require_eq_ok.1 hpositive), nofun⟩
  | setTargets _ fixed run ih =>
    obtain ⟨-, searches, stats, -, rfl, hsearches⟩ :=
      (meets_setTargets (fun target _ => starts_isSound homed ih.positive target)
        (.inl trivial)).of_runOn fixed run
    refine ⟨ih.positive, fun targets' htargets => ?_⟩
    obtain rfl := Option.some.inj htargets
    exact hsearches
  | @step s _ count _ _ _ fixed run ih =>
    obtain ⟨hengaged, hpositive, searches, stats, rfl⟩ := of_step_ok run
    refine ⟨ih.positive, fun targets htargets => ?_⟩
    have hmoves : ∀ target x, Search.IsSound (s.guidance k) True target x → ∀ stats,
        (Task.steps (s.guidance k) count).Meets k.rules True ⟨x, stats⟩ fun _ t =>
          t.search.IsSound (s.guidance k) True target :=
      fun _ _ hsound => Task.ensures_steps (g := s.guidance k) homed (.inl trivial) count hsound
    have hstep := meets_step hmoves (ih.searches targets htargets) hengaged hpositive
    obtain ⟨-, searches', stats', hsolver, hsearches⟩ := hstep.of_runOn fixed run
    cases hsolver
    exact hsearches
  | clear _ ih => exact ⟨ih.positive, nofun⟩

theorem reached_setTargets_step (homed : k.IsHomed) (earlier : s.Reached k) {count : Nat}
    {source source' : Source} (fixed : source.rules = k.rules)
    (run : ((do setTargets k targets; step k count : Changes Solver Unit).runOn s).run source =
      ((.ok (), s'), source')) : s'.Reached k := by
  have hset : (setTargets k targets).Meets k.rules True s _ :=
    meets_setTargets (fun target _ => starts_isSound homed (earlier.isSound homed).positive target)
      (.inl trivial)
  obtain ⟨⟨⟩, s₁, source₁, hrun, run⟩ := Changes.exists_of_runOn_bind run
  exact .step (.setTargets earlier fixed hrun) (hset.of_runOn fixed hrun).1 run

/-- **Verdicts are right.** Whatever the plan and the depths of a solver are, and whatever steps it
took, the searches for its targets are right about their verdicts. -/
theorem Reached.forall_answers (built : k.Built) (reached : s.Reached k)
    (set : s.targets = some targets) :
    List.Forall₂ (fun target x => x.Answers k target s.maxDepth) targets s.searches :=
  ((reached.isSound built.homed).searches targets set).imp fun _ _ h => h.answers

/-- Two targets for the rules of an involution: that a fourfold involution changes nothing, and
that the involution itself does not. -/
def involutionTargets : List Statement :=
  [.fourfold, .ofEquation .involution ⟨.app 0 [.var 0], .var 0⟩]

/-- The search for proofs of up to two steps. -/
def involutionRun : (Checked Unit × Solver) × Source :=
  ((do setTargets (.involution {}) involutionTargets; step (.involution {}) 100 :
    Changes Solver Unit).runOn { plan := {}, maxDepth := 2, startingDepth := 1 }).run
      (Kernel.involution {}).source

/-- The first target is proved and the second one is not. -/
theorem forall_answers_involution :
    ∃ s : Solver, s.Reached (.involution {}) ∧ s.targets = some involutionTargets ∧
      s.verdicts = [.proven, .noProof] ∧
      List.Forall₂ (fun target x => x.Answers (.involution {}) target s.maxDepth)
        involutionTargets s.searches := by
  have hbuilt := Kernel.built_involution {}
  have hmade : make {} 2 1 = .ok { plan := {}, maxDepth := 2, startingDepth := 1 } := rfl
  have hreached : ∀ s source, involutionRun = ((.ok (), s), source) →
      s.Reached (.involution {}) := by
    intro s source hrun
    rw [involutionRun] at hrun
    exact reached_setTargets_step hbuilt.homed (.make hmade) rfl hrun
  have hanswer : (match involutionRun with
      | ((.ok (), s), _) => (s.targets, s.verdicts)
      | ((.error _, s), _) => (none, s.verdicts)) =
      (some involutionTargets, [.proven, .noProof]) := by decide +kernel
  revert hreached hanswer
  rcases involutionRun with ⟨⟨cause | ⟨⟩, s⟩, source⟩
  · intro _ hanswer
    cases hanswer
  · intro hreached hanswer
    obtain ⟨htargets, hverdicts⟩ := Prod.mk.inj hanswer
    have hreached := hreached s source rfl
    exact ⟨s, hreached, htargets, hverdicts, hreached.forall_answers hbuilt htargets⟩

end Solver

end Equational
