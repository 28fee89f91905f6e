import Equational.Proofs.Bookkeeping

/-!
# Solvers stay in order

The counters of a solver are the sums of the accounts of its searches, and each search is in order.
This holds when targets were set, and after every step.

Setting targets and taking steps may fail here at any time. A call that fails leaves the solver as
it was when the violation was met, and the next step goes on from there.
-/

namespace Equational

namespace Solver

/-- What is known of a solver at any time. The searches are those for the first targets, or for all
of them. -/
structure IsKept (k : Kernel) (maxDepth startingDepth : Nat) (started : List Statement)
    (s : Solver) :
    Prop where
  maxDepth_eq : s.maxDepth = maxDepth
  startingDepth_eq : s.startingDepth = startingDepth
  searches : List.Forall₂ (Search.IsKept k maxDepth startingDepth) started s.searches
  booked : ∀ c ∈ Counter.booked,
    s.stats.get c = (s.searches.map (Search.account startingDepth c)).sum

/-- What becomes of searches and of the counters that they share. -/
structure CarriesAll (k : Kernel) (maxDepth startingDepth : Nat) (started : List Statement)
    (xs : List Search) (stats : Statistics) (ys : List Search) (stats' : Statistics) : Prop where
  kept : List.Forall₂ (Search.IsKept k maxDepth startingDepth) started ys
  rests : ∀ (i : Nat) (x : Search), xs[i]? = some x → x.isDone = true → ys[i]? = some x
  booked : ∀ c ∈ Counter.booked, stats'.get c + (xs.map (Search.account startingDepth c)).sum =
    stats.get c + (ys.map (Search.account startingDepth c)).sum

variable {k : Kernel} {g : Guidance} {maxDepth startingDepth : Nat} {x : Search}
  {xs ys : List Search} {stats stats' : Statistics} {t : Task} {s s' : Solver} {target : Statement}
  {targets started : List Statement} {outcome : Checked Unit} {source source' : Source}

/-! ### Steps -/

theorem CarriesAll.refl (h : List.Forall₂ (Search.IsKept k maxDepth startingDepth) started xs) :
    CarriesAll k maxDepth startingDepth started xs stats xs stats :=
  ⟨h, fun _ _ hx _ => hx, fun _ _ => rfl⟩

theorem CarriesAll.cons (first : Task.Carries k maxDepth startingDepth target ⟨x, stats⟩ t)
    (rest : CarriesAll k maxDepth startingDepth started xs t.stats ys stats') :
    CarriesAll k maxDepth startingDepth (target :: started) (x :: xs) stats (t.search :: ys)
      stats' := by
  refine ⟨.cons first.kept rest.kept, fun i y hi done => ?_, fun c hc => ?_⟩
  · cases i with
    | zero =>
      obtain rfl := Option.some.inj hi
      exact congrArg some (first.rests done)
    | succ i => exact rest.rests i y hi done
  · have hfirst : t.stats.get c + x.account startingDepth c =
        stats.get c + t.search.account startingDepth c := first.booked c hc
    have hrest := rest.booked c hc
    simp only [List.map_cons, List.sum_cons]
    omega

/-- Where a search fails, those after it are left alone. -/
theorem carriesAll_stepAll
    (h : List.Forall₂ (Search.IsKept g.kernel g.maxDepth startingDepth) started xs) (count : Nat)
    (fixed : source.rules = g.kernel.rules)
    (run : (stepAll g count xs stats).run source = ((outcome, ys, stats'), source')) :
    CarriesAll g.kernel g.maxDepth startingDepth started xs stats ys stats' := by
  induction h generalizing stats stats' source source' outcome ys with
  | nil =>
    cases run
    exact .refl .nil
  | @cons target x started xs hx hxs ih =>
    rw [run_stepAll_cons] at run
    rcases hsteps : ((Task.steps g count).runOn ⟨x, stats⟩).run source with ⟨⟨answer, t⟩, source₁⟩
    obtain ⟨hfixed, hcarries⟩ := Task.carries_steps hx count fixed hsteps
    rw [hsteps] at run
    cases answer with
    | error cause =>
      cases run
      exact .cons hcarries (.refl hxs)
    | ok u =>
      dsimp only at run
      rcases hrest : (stepAll g count xs t.stats).run source₁ with ⟨⟨answer, zs, stats₂⟩, source₂⟩
      have hothers := ih (hfixed rfl) hrest
      rw [hrest] at run
      cases run
      exact .cons hcarries hothers

theorem of_step {count : Nat}
    (run : ((step k count).runOn s).run source = ((outcome, s'), source')) :
    s' = s ∨ ∃ searches stats, s' = { s with searches, stats } ∧
      (stepAll (s.guidance k) count s.searches (s.stats.add .steps 1)).run source =
        ((outcome, searches, stats), source') := by
  by_cases hready : s.isEngaged = true ∧ 0 < count
  · rw [runOn_step hready.1 hready.2] at run
    rcases hall : (stepAll (s.guidance k) count s.searches (s.stats.add .steps 1)).run source with
      ⟨⟨answer, searches, stats⟩, source₁⟩
    rw [hall] at run
    cases run
    exact .inr ⟨searches, stats, rfl, rfl⟩
  · left
    rw [step, Changes.runOn_get_bind, Changes.runOn_bind, Changes.runOn_liftM] at run
    rcases hengaged : s.isEngaged with _ | _
    · rw [hengaged] at run
      cases run
      rfl
    · have hcount : decide (0 < count) = false := by simpa [hengaged] using hready
      rw [hengaged, hcount] at run
      cases run
      rfl

/-- **Each step keeps a solver in order**, also if it fails, and searches that are done are left as
they are. -/
theorem IsKept.step {count : Nat} (h : s.IsKept k maxDepth startingDepth started)
    (fixed : source.rules = k.rules)
    (run : ((step k count).runOn s).run source = ((outcome, s'), source')) :
    s'.IsKept k maxDepth startingDepth started ∧
      ∀ (i : Nat) (x : Search), s.searches[i]? = some x → x.isDone = true →
        s'.searches[i]? = some x := by
  rcases of_step run with rfl | ⟨searches, stats, rfl, hall⟩
  · exact ⟨h, fun _ _ hx _ => hx⟩
  · obtain ⟨rfl, rfl, hsearches, hbooked⟩ := h
    have hcarries := carriesAll_stepAll (g := s.guidance k) hsearches count fixed hall
    refine ⟨⟨rfl, rfl, hcarries.kept, fun c hc => ?_⟩, hcarries.rests⟩
    have hsteps : c ≠ .steps := by
      rintro rfl
      simp [Counter.booked] at hc
    have hsum := hcarries.booked c hc
    rw [Statistics.get_add, if_neg hsteps, hbooked c hc] at hsum
    show stats.get c = (searches.map (Search.account s.startingDepth c)).sum
    omega

/-! ### Setting targets -/

/-- The target is refused, or a search for it is attempted. Only one that was started is kept. -/
theorem of_begin (fixed : source.rules = k.rules)
    (run : ((begin k target).runOn s).run source = ((outcome, s'), source')) :
    (∃ cause, outcome = .error cause ∧ s' = s) ∨
      ∃ (root : ProofState) (t : Task) (source₁ : Source), k.Begins target root ∧
        source₁.rules = k.rules ∧
        ((Task.start (s.guidance k)).runOn ⟨{ root, limit := s.startingDepth }, s.stats⟩).run
          source₁ = ((outcome, t), source') ∧
        ((∃ cause, outcome = .error cause ∧ s' = { s with stats := t.stats }) ∨
          outcome = .ok () ∧
            s' = { s with stats := t.stats, searches := s.searches ++ [t.search] }) := by
  rw [begin, Changes.runOn_bind, Changes.runOn_draw] at run
  rcases hprove : (k.prove target).runOn source with ⟨cause | root, source₁⟩
  · rw [hprove] at run
    cases run
    exact .inl ⟨cause, rfl, rfl⟩
  · have hmeets : (k.prove target).Meets k.rules True _ := meets_prove (.inl trivial)
    obtain ⟨hfixed, hbegins⟩ := hmeets.of_runOn fixed hprove
    rw [hprove] at run
    dsimp only at run
    rw [Changes.runOn_get_bind, Changes.runOn_attempt_bind] at run
    refine .inr ⟨root, ?_⟩
    rcases hstart : ((Task.start (s.guidance k)).runOn
      ⟨{ root, limit := s.startingDepth }, s.stats⟩).run source₁ with ⟨⟨answer, t⟩, source₂⟩
    rw [hstart] at run
    cases answer with
    | error cause =>
      cases run
      exact ⟨t, source₁, hbegins, hfixed, hstart, .inl ⟨cause, rfl, rfl⟩⟩
    | ok u =>
      cases run
      exact ⟨t, source₁, hbegins, hfixed, hstart, .inr ⟨rfl, rfl⟩⟩

/-- A search that is started is in order, and what is counted is booked. -/
theorem IsKept.begin (h : s.IsKept k maxDepth startingDepth started)
    (positive : 0 < startingDepth) (below : startingDepth < maxDepth)
    (fixed : source.rules = k.rules)
    (run : ((Solver.begin k target).runOn s).run source = ((outcome, s'), source')) :
    (outcome = .ok () ∧ source'.rules = k.rules ∧
        s'.IsKept k maxDepth startingDepth (started ++ [target])) ∨
      ∃ cause, outcome = .error cause ∧ s'.IsKept k maxDepth startingDepth started := by
  rcases of_begin fixed run with
    ⟨cause, rfl, rfl⟩ | ⟨root, t, source₁, hbegins, hfixed, hstart, hs'⟩
  · exact .inr ⟨cause, rfl, h⟩
  · obtain ⟨rfl, rfl, hsearches, hbooked⟩ := h
    obtain ⟨hfixed', hsame, hcarries⟩ := Task.carries_start (g := s.guidance k)
      hbegins positive (Nat.le_of_lt below) hfixed hstart
    have hadded : ∀ c ∈ Counter.booked,
        t.stats.get c = s.stats.get c + t.search.account s.startingDepth c := by
      intro c hc
      have hcarried := hcarries.booked c hc
      rwa [Search.account_new] at hcarried
    rcases hs' with ⟨cause, rfl, rfl⟩ | ⟨rfl, rfl⟩
    · -- a search that was not started has nothing to its account
      refine .inr ⟨cause, rfl, rfl, rfl, hsearches, fun c hc => ?_⟩
      have hsum := hadded c hc
      rw [hsame cause rfl, Search.account_new, hbooked c hc] at hsum
      exact hsum
    · refine .inl ⟨rfl, hfixed', rfl, rfl, ?_, fun c hc => ?_⟩
      · exact List.rel_append hsearches (.cons hcarries.kept .nil)
      · rw [List.map_append, List.sum_append, ← hbooked c hc]
        exact hadded c hc

theorem IsKept.forM_begin (h : s.IsKept k maxDepth startingDepth started)
    (positive : 0 < startingDepth) (below : startingDepth < maxDepth)
    (fixed : source.rules = k.rules)
    (run : ((targets.forM (Solver.begin k)).runOn s).run source = ((outcome, s'), source')) :
    ∃ more, more <+: targets ∧ (outcome = .ok () → more = targets) ∧
      s'.IsKept k maxDepth startingDepth (started ++ more) := by
  induction targets generalizing s started source with
  | nil =>
    cases run
    exact ⟨[], List.prefix_rfl, fun _ => rfl, by rwa [List.append_nil]⟩
  | cons target targets ih =>
    rw [show (target :: targets).forM (Solver.begin k) =
      (do Solver.begin k target; targets.forM (Solver.begin k)) from rfl, Changes.runOn_bind] at run
    rcases hbegin : ((Solver.begin k target).runOn s).run source with ⟨⟨answer, s₁⟩, source₁⟩
    rw [hbegin] at run
    rcases h.begin positive below fixed hbegin with ⟨rfl, hfixed, hs₁⟩ | ⟨cause, rfl, hs₁⟩
    · obtain ⟨more, hmore, hall, hs'⟩ := ih hs₁ hfixed run
      refine ⟨target :: more, List.cons_prefix_cons.2 ⟨rfl, hmore⟩, fun hok => ?_, ?_⟩
      · rw [hall hok]
      · rwa [List.append_assoc] at hs'
    · cases run
      refine ⟨[], List.nil_prefix, ?_, by rwa [List.append_nil]⟩
      rintro ⟨⟩

/-- The targets are started one by one, until all are or one cannot be. -/
theorem isKept_of_setTargets {plan : Plan} (made : make plan maxDepth startingDepth = .ok s)
    (fixed : source.rules = k.rules)
    (run : ((setTargets k targets).runOn s).run source = ((outcome, s'), source')) :
    ∃ started, started <+: targets ∧ (outcome = .ok () → started = targets) ∧
      s'.IsKept k maxDepth startingDepth started := by
  obtain ⟨hpositive, hbelow, rfl⟩ := make_eq_ok_iff.1 made
  have hnew : ∀ targets, ({ plan, maxDepth, startingDepth, targets } : Solver).IsKept k maxDepth
      startingDepth [] := fun _ => ⟨rfl, rfl, .nil, fun _ _ => rfl⟩
  rw [setTargets, Changes.runOn_bind, Changes.runOn_liftM] at run
  cases targets with
  | nil =>
    cases run
    exact ⟨[], List.prefix_rfl, fun _ => rfl, hnew none⟩
  | cons target targets =>
    exact (hnew (some (target :: targets))).forM_begin hpositive hbelow fixed run

end Solver

/-! ### What can be relied on -/

namespace Search

/-- The frames from the root to the innermost one. -/
def frames (x : Search) : List Frame := x.stack.reverse

/-- A search that may go from one depth to the other is in order. -/
structure IsOrderly (k : Kernel) (maxDepth startingDepth : Nat) (x : Search) : Prop where
  least : startingDepth ≤ x.limit
  most : x.limit ≤ maxDepth
  length : x.frames.length ≤ x.limit
  root : ∀ f : Frame, x.frames[0]? = some f → f.state = x.root
  depth : ∀ (i : Nat) (f : Frame), x.frames[i]? = some f → f.state.depth = i
  next : ∀ (i : Nat) (f f' : Frame), x.frames[i]? = some f → x.frames[i + 1]? = some f' →
    k.IsSuccessor f.state f'.state
  counted : 1 ≤ x.expansions
  proven : x.verdict = .proven ↔ x.proof.isSome = true
  ended : x.isDone = true → x.frames = []

theorem IsKept.isOrderly {k : Kernel} {maxDepth startingDepth : Nat} {target : Statement}
    {x : Search}
    (h : x.IsKept k maxDepth startingDepth target) : x.IsOrderly k maxDepth startingDepth where
  least := h.least
  most := h.most
  length := by simpa [frames] using h.within
  root _ hf := h.stacked.root_eq hf
  depth _ _ hf := h.stacked.depth_eq h.begins.start.2.2.2 hf
  next _ _ _ hf hf' := h.stacked.isSuccessor hf hf'
  counted := h.counted
  proven := h.proven
  ended done := by simpa [frames] using h.ended done

theorem sum_account_verdict (v : Verdict) (xs : List Search) :
    (xs.map fun x => if x.verdict = v then 1 else 0).sum = (xs.map verdict).count v := by
  induction xs with
  | nil => rfl
  | cons x xs ih =>
    simp only [List.map_cons, List.sum_cons, List.count_cons, beq_iff_eq, ih]
    omega

end Search

namespace Solver

/-- The counters tell what can be read off the searches. -/
structure Tallies (s : Solver) : Prop where
  expansions : s.stats.get .expansions = (s.expansions.map (· - 1)).sum
  depthIncreases : s.stats.get .depthIncreases = (s.limits.map (· - s.startingDepth)).sum
  targetsProven : s.stats.get .targetsProven = s.verdicts.count .proven
  targetsFailed : s.stats.get .targetsFailed = s.verdicts.count .noProof

variable {k : Kernel} {plan : Plan} {maxDepth startingDepth : Nat} {new s₀ s s' : Solver}
  {targets started : List Statement} {outcome : Checked Unit} {source source' : Source}

theorem IsKept.tallies (h : s.IsKept k maxDepth startingDepth started) : s.Tallies := by
  obtain ⟨rfl, rfl, -, hbooked⟩ := h
  refine ⟨?_, ?_, ?_, ?_⟩
  · rw [hbooked .expansions (by simp [Counter.booked]), expansions, List.map_map]
    rfl
  · rw [hbooked .depthIncreases (by simp [Counter.booked]), limits, List.map_map]
    rfl
  · rw [hbooked .targetsProven (by simp [Counter.booked])]
    exact Search.sum_account_verdict .proven s.searches
  · rw [hbooked .targetsFailed (by simp [Counter.booked])]
    exact Search.sum_account_verdict .noProof s.searches

/-- The second solver comes from the first one by steps, of which any may fail. -/
inductive Stepped (k : Kernel) (s : Solver) : Solver → Prop
  | refl : Stepped k s s
  | step {t t' : Solver} {count : Nat} {outcome : Checked Unit} {source source' : Source}
      (earlier : Stepped k s t) (fixed : source.rules = k.rules)
      (run : ((step k count).runOn t).run source = ((outcome, t'), source')) : Stepped k s t'

theorem IsKept.stepped (h : s.IsKept k maxDepth startingDepth started) (stepped : s.Stepped k s') :
    s'.IsKept k maxDepth startingDepth started ∧
      ∀ (i : Nat) (x : Search), s.searches[i]? = some x → x.isDone = true →
        s'.searches[i]? = some x := by
  induction stepped with
  | refl => exact ⟨h, fun _ _ hx _ => hx⟩
  | step _ fixed run ih =>
    obtain ⟨hkept, hrests⟩ := ih.1.step fixed run
    exact ⟨hkept, fun i x hx done => hrests i x (ih.2 i x hx done) done⟩

/-- **Solvers stay in order.** Whatever the kernel and the plan are: when targets were set on a new
solver and any steps were taken, with success or not, then the searches are those for the targets,
or for the first of them if setting the targets failed. Each search is in order, the counters tell
what the searches have done, and a search that is done never changes again. -/
theorem Stepped.in_order (made : make plan maxDepth startingDepth = .ok new)
    (fixed : source.rules = k.rules)
    (set : ((setTargets k targets).runOn new).run source = ((outcome, s₀), source'))
    (stepped : s₀.Stepped k s) :
    (∃ started, started <+: targets ∧ (outcome = .ok () → started = targets) ∧
        List.Forall₂ (fun target x => k.Begins target x.root ∧
          x.IsOrderly k maxDepth startingDepth) started s.searches) ∧
      s.startingDepth = startingDepth ∧ s.Tallies ∧
      ∀ later, s.Stepped k later → ∀ (i : Nat) (x : Search), s.searches[i]? = some x →
        x.isDone = true → later.searches[i]? = some x := by
  obtain ⟨started, hstarted, hall, hset⟩ := isKept_of_setTargets made fixed set
  obtain ⟨hkept, -⟩ := hset.stepped stepped
  refine ⟨⟨started, hstarted, hall, ?_⟩, hkept.startingDepth_eq, hkept.tallies, ?_⟩
  · exact hkept.searches.imp fun _ _ hx => ⟨hx.begins, hx.isOrderly⟩
  · intro later hlater
    exact (hkept.stepped hlater).2

/-- A solver that is to prove that a fourfold involution changes nothing, and that the involution
itself does not. -/
def involutionStart : (Checked Unit × Solver) × Source :=
  ((setTargets (.involution {}) involutionTargets).runOn
    { plan := {}, maxDepth := 2, startingDepth := 1 }).run (Kernel.involution {}).source

/-- The first target is proved and the second one is not, and both are counted. -/
theorem in_order_involution :
    ∃ s, involutionStart.1.2.Stepped (.involution {}) s ∧ s.verdicts = [.proven, .noProof] ∧
      s.stats.get .targetsProven = 1 ∧ s.Tallies ∧
      List.Forall₂ (fun target x => (Kernel.involution {}).Begins target x.root ∧
        x.IsOrderly (.involution {}) 2 1) involutionTargets s.searches := by
  have hmade : make {} 2 1 = .ok { plan := {}, maxDepth := 2, startingDepth := 1 } := rfl
  have hanswer : (involutionStart.1.1.isOk, (((step (.involution {}) 100).runOn
      involutionStart.1.2).run (Kernel.involution {}).source).1.2.verdicts) =
      (true, [.proven, .noProof]) := by decide +kernel
  obtain ⟨⟨⟨outcome, s₀⟩, source⟩, hset⟩ : ∃ r, involutionStart = r := ⟨_, rfl⟩
  rw [hset] at hanswer ⊢
  dsimp only at hanswer ⊢
  rcases hrun : ((step (.involution {}) 100).runOn s₀).run (Kernel.involution {}).source with
    ⟨⟨answer, s⟩, source₁⟩
  rw [hrun] at hanswer
  obtain ⟨hok, hverdicts⟩ := Prod.mk.inj hanswer
  have hstepped : s₀.Stepped (.involution {}) s := .step .refl rfl hrun
  obtain ⟨⟨started, -, hall, hsearches⟩, -, htallies, -⟩ := hstepped.in_order hmade rfl hset
  refine ⟨s, hstepped, hverdicts, ?_, htallies, ?_⟩
  · rw [htallies.targetsProven, hverdicts]
    decide
  · cases outcome with
    | error cause => cases hok
    | ok u =>
      obtain rfl := hall rfl
      exact hsearches

end Solver

end Equational
