import Equational.Proofs.Lasting
import Equational.Proofs.Solver

/-!
# Single moves

A move of a search takes a successor from the innermost cursor, leaves a state whose cursor
has come to its end, starts another pass, or ends the search. `Search.Moves` lists all that
can happen and what is counted meanwhile, also where a violation is met, and
`Task.moves_of_step` says that nothing else happens. What holds of a search after any number
of moves is then a matter of going through this list.

`Search.After` counts the moves that a search was granted. Each of them may draw on a source
of its own, as long as the rules are those of the kernel, so nothing is assumed about what
other searches do meanwhile, and all that matters of a solver is how many moves each of its
searches was granted (`Solver.Advanced`).
-/

namespace Equational

/-- The plan can open this cursor over the successors of the state. -/
def Guidance.Opened (g : Guidance) (s : ProofState) (c : Cursor) : Prop :=
  ∃ source source' : Source, source.rules = g.kernel.rules ∧
    (g.plan.successors g.kernel s).runOn source = (.ok c, source')

/-- Moving the cursor on can have this outcome and lead to the second cursor. -/
def Cursor.MovesTo (rules : List Rule) (outcome : Checked Unit) (c c' : Cursor) : Prop :=
  ∃ source source' : Source, source.rules = rules ∧
    (advance.runOn c).run source = ((outcome, c'), source')

namespace Cursor

variable {rules : List Rule} {lenient : Prop} {c c' : Cursor} {child : ProofState}
  {post : List ProofState → Prop}

/-- What a cursor gives after it was moved on comes after what it gave before. -/
theorem MovesTo.runs (moved : c.MovesTo rules (.ok ()) c') (current : c.get = .ok child)
    (runs : c.supply.Runs rules lenient post) :
    c'.supply.Runs rules lenient fun rest => post (child :: rest) := by
  obtain ⟨source, source', fixed, hadvance⟩ := moved
  obtain ⟨kind, supply⟩ := c
  cases supply with
  | done gauge => cases current
  | stuck level gauge => cases current
  | item value gauge next =>
    obtain rfl : value = child := Except.ok.inj current
    have hnext := runs source fixed
    rw [run_advance_item] at hadvance
    revert hadvance hnext
    cases next source with
    | broken cause left source₁ => exact fun hadvance => nomatch hadvance
    | rest supply source₁ =>
      intro hadvance hnext
      cases hadvance
      exact hnext.2

theorem runs_of_ended (ended : c.isValid = false) (runs : c.supply.Runs rules lenient post) :
    post [] := by
  obtain ⟨kind, supply⟩ := c
  cases supply with
  | done gauge => exact runs
  | item value gauge next => simp [isValid, Supply.isDone] at ended
  | stuck level gauge => simp [isValid, Supply.isDone] at ended

end Cursor

theorem Guidance.Opened.isOver {g : Guidance} {s : ProofState} {c : Cursor} {lenient : Prop}
    (opened : g.Opened s c) (homed : g.kernel.IsHomed) (hctx : s.ctx = g.kernel.ctx)
    (safe : lenient ∨ g.IsSafe s.forefront) : c.IsOver g.kernel lenient s := by
  obtain ⟨source, source', fixed, run⟩ := opened
  exact ((Plan.meets_successors safe homed hctx).of_runOn fixed run).2

namespace Search

/-- The innermost cursor gives the child and moves on, and the child is counted. -/
inductive Takes (g : Guidance) (x : Search) (child : ProofState) : Search → Prop
  | intro {f : Frame} {outer : List Frame} {cursor : Cursor} (top : x.stack = f :: outer)
      (current : f.cursor.get = .ok child)
      (moved : f.cursor.MovesTo g.kernel.rules (.ok ()) cursor) :
      Takes g x child
        { x with stack := { f with cursor } :: outer, expansions := x.expansions + 1 }

/-- What one move can make of a search, whether it succeeds, and what is counted. -/
inductive Moves (g : Guidance) (x : Search) : Bool → List Counter → Search → Prop
  | fail (empty : x.stack = [])
      (last : (x.cutOff && decide (x.limit < g.maxDepth)) = false) :
      Moves g x true [.targetsFailed] x.fail
  | raise {cursor : Cursor} (empty : x.stack = []) (cut : x.cutOff = true)
      (below : x.limit < g.maxDepth) (opened : g.Opened x.root cursor) :
      Moves g x true [.depthIncreases, .statesOpened]
        { x with limit := x.limit + 1, cutOff := false, stack := [⟨x.root, cursor⟩] }
  | leave {f : Frame} {outer : List Frame} (top : x.stack = f :: outer)
      (ended : f.cursor.isValid = false) : Moves g x true [] { x with stack := outer }
  | prove {child : ProofState} {y : Search} (takes : x.Takes g child y)
      (trivial : g.kernel.isTrivial child.forefront = true) :
      Moves g x true [.expansions, .targetsProven] (y.prove child)
  | enter {child : ProofState} {y : Search} {cursor : Cursor} (takes : x.Takes g child y)
      (notTrivial : g.kernel.isTrivial child.forefront = false) (below : child.depth < x.limit)
      (opened : g.Opened child cursor) :
      Moves g x true [.expansions, .statesOpened] { y with stack := ⟨child, cursor⟩ :: y.stack }
  | cut {child : ProofState} {y : Search} (takes : x.Takes g child y)
      (notTrivial : g.kernel.isTrivial child.forefront = false) (beyond : x.limit ≤ child.depth) :
      Moves g x true [.expansions] { y with cutOff := true }
  -- Where no cursor can be opened, and where one cannot be moved on:
  | raiseOnly (empty : x.stack = []) (cut : x.cutOff = true) (below : x.limit < g.maxDepth) :
      Moves g x false [.depthIncreases, .statesOpened]
        { x with limit := x.limit + 1, cutOff := false }
  | takeOnly {child : ProofState} {y : Search} (takes : x.Takes g child y)
      (notTrivial : g.kernel.isTrivial child.forefront = false) (below : child.depth < x.limit) :
      Moves g x false [.expansions, .statesOpened] y
  | stall {f : Frame} {outer : List Frame} {cause : Violation} {cursor : Cursor}
      (top : x.stack = f :: outer) (valid : f.cursor.isValid = true)
      (moved : f.cursor.MovesTo g.kernel.rules (.error cause) cursor) :
      Moves g x false [] { x with stack := { f with cursor } :: outer }

end Search

namespace Task

variable {g : Guidance} {x y : Search} {s child : ProofState} {stats : Statistics} {t : Task}
  {source source' : Source} {outcome : Checked Unit}

/-! ### What the parts of a move do -/

theorem runOn_enter (s : ProofState) (x : Search) (stats : Statistics) (source : Source) :
    ((enter g s).runOn ⟨x, stats⟩).run source =
      match (g.plan.successors g.kernel s).runOn source with
      | (.ok cursor, source) =>
        ((.ok (), ⟨{ x with stack := ⟨s, cursor⟩ :: x.stack }, stats.add .statesOpened 1⟩), source)
      | (.error cause, source) => ((.error cause, ⟨x, stats.add .statesOpened 1⟩), source) := by
  rw [enter, Changes.runOn_bind]
  show ((Changes.draw (g.plan.successors g.kernel s) >>= _).runOn _).run source = _
  rw [Changes.runOn_bind, Changes.runOn_draw]
  rcases (g.plan.successors g.kernel s).runOn source with ⟨cause | cursor, source'⟩
  · rfl
  · rfl

theorem runOn_proveOr (fixed : source.rules = g.kernel.rules) (s : ProofState)
    (otherwise : Changes Task Unit) (x : Search) (stats : Statistics) :
    ((proveOr s otherwise).runOn ⟨x, stats⟩).run source =
      if g.kernel.isTrivial s.forefront = true then
        ((.ok (), ⟨x.prove s, stats.add .targetsProven 1⟩), source)
      else (otherwise.runOn ⟨x, stats⟩).run source := by
  have htrivial : ((isTrivial s.forefront).runOn ⟨x, stats⟩).run source =
      ((.ok (g.kernel.isTrivial s.forefront), ⟨x, stats⟩), source) := by
    rw [Kernel.isTrivial, ← fixed]
    rfl
  rw [proveOr, Changes.runOn_bind, htrivial]
  cases g.kernel.isTrivial s.forefront with
  | true => rfl
  | false => rfl

theorem runOn_expand (fixed : source.rules = g.kernel.rules) (child : ProofState) (x : Search)
    (stats : Statistics) :
    ((expand g child).runOn ⟨x, stats⟩).run source =
      if g.kernel.isTrivial child.forefront = true then
        ((.ok (), ⟨{ x with expansions := x.expansions + 1 }.prove child,
          stats.count [.expansions, .targetsProven]⟩), source)
      else if child.depth < x.limit then
        ((enter g child).runOn
          ⟨{ x with expansions := x.expansions + 1 }, stats.add .expansions 1⟩).run source
      else
        ((.ok (), ⟨{ x with expansions := x.expansions + 1, cutOff := true },
          stats.add .expansions 1⟩), source) := by
  rw [expand, Changes.runOn_bind]
  show ((update _ >>= fun _ => proveOr child _).runOn _).run source = _
  rw [Changes.runOn_bind]
  show ((proveOr child _).runOn _).run source = _
  rw [runOn_proveOr fixed]
  split
  next => rfl
  next =>
    rw [Changes.runOn_bind]
    show ((if child.depth < x.limit then enter g child
      else update _ : Changes Task Unit).runOn _).run
      source = _
    split
    next => rfl
    next => rfl

theorem runOn_finishPass (x : Search) (stats : Statistics) (source : Source) :
    ((finishPass g).runOn ⟨x, stats⟩).run source =
      if (x.cutOff && decide (x.limit < g.maxDepth)) = true then
        ((enter g x.root).runOn ⟨{ x with limit := x.limit + 1, cutOff := false },
          stats.add .depthIncreases 1⟩).run source
      else ((.ok (), ⟨x.fail, stats.add .targetsFailed 1⟩), source) := by
  rw [finishPass, Changes.runOn_bind]
  show ((if (x.cutOff && decide (x.limit < g.maxDepth)) = true then _ else _ :
    Changes Task Unit).runOn _).run source = _
  split
  next =>
    rw [Changes.runOn_bind]
    show ((count .depthIncreases >>= fun _ => enter g x.root).runOn _).run source = _
    rw [Changes.runOn_bind]
    rfl
  next => rfl

/-! ### Moves are those listed -/

/-- A state is entered, or no cursor can be opened over its successors. -/
theorem enter_cases (fixed : source.rules = g.kernel.rules)
    (run : ((enter g s).runOn ⟨x, stats⟩).run source = ((outcome, t), source')) :
    source'.rules = g.kernel.rules ∧ t.stats = stats.add .statesOpened 1 ∧
      ((∃ cursor, outcome = .ok () ∧ g.Opened s cursor ∧
          t.search = { x with stack := ⟨s, cursor⟩ :: x.stack }) ∨
        ∃ cause, outcome = .error cause ∧ t.search = x) := by
  rw [runOn_enter] at run
  rcases hrun : (g.plan.successors g.kernel s).runOn source with ⟨cause | cursor, source₁⟩
  · have hfixed := ((g.plan.lasts_successors g.kernel s).of_runOn fixed hrun).1
    rw [hrun] at run
    cases run
    exact ⟨hfixed, rfl, .inr ⟨cause, rfl, rfl⟩⟩
  · have hfixed := ((g.plan.lasts_successors g.kernel s).of_runOn fixed hrun).1
    rw [hrun] at run
    cases run
    exact ⟨hfixed, rfl, .inl ⟨cursor, rfl, ⟨source, _, fixed, hrun⟩, rfl⟩⟩

theorem moves_of_finishPass (fixed : source.rules = g.kernel.rules) (empty : x.stack = [])
    (run : ((finishPass g).runOn ⟨x, stats⟩).run source = ((outcome, t), source')) :
    source'.rules = g.kernel.rules ∧
      ∃ events, x.Moves g outcome.isOk events t.search ∧ t.stats = stats.count events := by
  rw [runOn_finishPass] at run
  split at run
  next hmore =>
    obtain ⟨hcut, hbelow⟩ := Bool.and_eq_true_iff.1 hmore
    obtain ⟨hfixed, hstats, ⟨cursor, rfl, hopened, hsearch⟩ | ⟨cause, rfl, hsearch⟩⟩ :=
      enter_cases fixed run
    · rw [empty] at hsearch
      rw [hsearch]
      exact ⟨hfixed, [.depthIncreases, .statesOpened],
        .raise empty hcut (of_decide_eq_true hbelow) hopened, hstats⟩
    · rw [hsearch]
      exact ⟨hfixed, [.depthIncreases, .statesOpened],
        .raiseOnly empty hcut (of_decide_eq_true hbelow), hstats⟩
  next hlast =>
    cases run
    exact ⟨fixed, [.targetsFailed], .fail empty (by simpa using hlast), rfl⟩

theorem moves_of_expand (fixed : source.rules = g.kernel.rules)
    (takes : x.Takes g child { y with expansions := y.expansions + 1 }) (limit : y.limit = x.limit)
    (run : ((expand g child).runOn ⟨y, stats⟩).run source = ((outcome, t), source')) :
    source'.rules = g.kernel.rules ∧
      ∃ events, x.Moves g outcome.isOk events t.search ∧ t.stats = stats.count events := by
  rw [runOn_expand fixed] at run
  split at run
  next htrivial =>
    cases run
    exact ⟨fixed, _, .prove takes htrivial, rfl⟩
  next hopen =>
    have hopen : g.kernel.isTrivial child.forefront = false := by simpa using hopen
    split at run
    next hbelow =>
      rw [limit] at hbelow
      obtain ⟨hfixed, hstats, ⟨cursor, rfl, hopened, hsearch⟩ | ⟨cause, rfl, hsearch⟩⟩ :=
        enter_cases fixed run
      · rw [hsearch]
        exact ⟨hfixed, [.expansions, .statesOpened], .enter takes hopen hbelow hopened, hstats⟩
      · rw [hsearch]
        exact ⟨hfixed, [.expansions, .statesOpened], .takeOnly takes hopen hbelow, hstats⟩
    next hbeyond =>
      rw [limit] at hbeyond
      cases run
      exact ⟨fixed, [.expansions], .cut takes hopen (Nat.le_of_not_lt hbeyond), rfl⟩

/-- The child is taken and the cursor moves on, or the search stays where it is. -/
theorem takeChild_cases {f : Frame} {outer : List Frame} {answer : Checked ProofState}
    {Q : ProofState → Prop}
    (fixed : source.rules = g.kernel.rules) (top : x.stack = f :: outer)
    (each : f.cursor.supply.Each g.kernel.rules Q) (valid : f.cursor.isValid = true)
    (run : ((takeChild f outer).runOn ⟨x, stats⟩).run source = ((answer, t), source')) :
    ∃ cursor, t = ⟨{ x with stack := { f with cursor } :: outer }, stats⟩ ∧
      ((∃ child, answer = .ok child ∧ f.cursor.get = .ok child ∧
          f.cursor.MovesTo g.kernel.rules (.ok ()) cursor ∧ source'.rules = g.kernel.rules) ∨
        ∃ cause cause', answer = .error cause ∧
          f.cursor.MovesTo g.kernel.rules (.error cause') cursor) := by
  obtain ⟨state, kind, supply⟩ := f
  cases supply with
  | done gauge => exact absurd valid Bool.false_ne_true
  | stuck level gauge =>
    cases run
    refine ⟨⟨kind, .stuck level gauge⟩, ?_, .inr ⟨_, _, rfl, source, source, fixed, rfl⟩⟩
    rw [← top]
  | item value gauge next =>
    have hadvance := Cursor.run_advance_item kind value gauge next source
    have hrest := each.2 source fixed
    rw [runOn_takeChild] at run
    rcases hnext : next source with ⟨supply, source₁⟩ | ⟨cause, left, source₁⟩
    · rw [hnext] at run hadvance hrest
      cases run
      exact ⟨⟨kind, supply⟩, rfl, .inl ⟨value, rfl, rfl, ⟨source, _, fixed, hadvance⟩, hrest.1⟩⟩
    · rw [hnext] at run hadvance
      cases run
      exact ⟨⟨kind, left⟩, rfl, .inr ⟨cause, cause, rfl, source, _, fixed, hadvance⟩⟩

/-- **Moves are those listed.** -/
theorem moves_of_step {Q : Frame → ProofState → Prop} (fixed : source.rules = g.kernel.rules)
    (each : ∀ f outer, x.stack = f :: outer → f.cursor.supply.Each g.kernel.rules (Q f))
    (run : ((step g).runOn ⟨x, stats⟩).run source = ((outcome, t), source')) :
    (outcome = .ok () → source'.rules = g.kernel.rules) ∧
      ∃ events, x.Moves g outcome.isOk events t.search ∧ t.stats = stats.count events := by
  rw [step, Changes.runOn_get_bind] at run
  dsimp only at run
  cases hstack : x.stack with
  | nil =>
    rw [hstack] at run
    obtain ⟨hfixed, hmoves⟩ := moves_of_finishPass fixed hstack run
    exact ⟨fun _ => hfixed, hmoves⟩
  | cons f outer =>
    rw [hstack] at run
    dsimp only at run
    by_cases hvalid : f.cursor.isValid = true
    · rw [if_pos hvalid, Changes.runOn_bind] at run
      rcases htake : ((takeChild f outer).runOn ⟨x, stats⟩).run source with ⟨⟨answer, t₁⟩, source₁⟩
      rw [htake] at run
      obtain ⟨cursor, rfl, ⟨child, rfl, hget, hmoved, hfixed⟩ | ⟨cause, _, rfl, hmoved⟩⟩ :=
        takeChild_cases fixed hstack (each f outer hstack) hvalid htake
      · dsimp only at run
        have htakes : x.Takes g child _ := .intro hstack hget hmoved
        obtain ⟨hfixed, hmoves⟩ := moves_of_expand
          (y := { x with stack := { f with cursor } :: outer }) hfixed htakes rfl run
        exact ⟨fun _ => hfixed, hmoves⟩
      · cases run
        refine ⟨?_, [], .stall hstack hvalid hmoved, rfl⟩
        rintro ⟨⟩
    · rw [if_neg hvalid] at run
      cases run
      exact ⟨fun _ => fixed, [], .leave hstack (by simpa using hvalid), rfl⟩

/-- The first move proves the target, or enters it. -/
theorem runOn_start (fixed : source.rules = g.kernel.rules) (x : Search) (stats : Statistics) :
    ((start g).runOn ⟨x, stats⟩).run source =
      if g.kernel.isTrivial x.root.forefront = true then
        ((.ok (), ⟨x.prove x.root, stats.add .targetsProven 1⟩), source)
      else ((enter g x.root).runOn ⟨x, stats⟩).run source := by
  rw [start, Changes.runOn_bind]
  exact runOn_proveOr fixed x.root (enter g x.root) x stats

/-! ### Runs -/

/-- The computation can succeed and make the second search of the first one. -/
def Leads (g : Guidance) (m : Changes Task Unit) (x y : Search) : Prop :=
  ∃ (stats : Statistics) (t : Task) (source source' : Source), source.rules = g.kernel.rules ∧
    (m.runOn ⟨x, stats⟩).run source = ((.ok (), t), source') ∧ t.search = y

variable {m : Changes Task Unit} {post : Unit → Search → Prop} {lenient : Prop}

theorem Ensures.of_leads (h : Ensures g lenient m x post) (leads : Leads g m x y) : post () y := by
  obtain ⟨stats, t, source, source', fixed, run, rfl⟩ := leads
  exact ((h stats).of_runOn fixed run).2

theorem Ensures.leads (h : Ensures g lenient m x post) :
    Ensures g lenient m x fun _ y => Leads g m x y := by
  intro stats source fixed
  have hmeets := h stats source fixed
  revert hmeets
  rcases hrun : (m.runOn ⟨x, stats⟩).run source with ⟨⟨cause | ⟨⟩, t⟩, source'⟩
  · exact fun hfail => hfail
  · exact fun ⟨hfixed, _⟩ => ⟨hfixed, stats, t, source, source', fixed, hrun, rfl⟩

end Task

namespace Search

/-- What a search for a proof of the target can have become when it was granted so many moves. A
search that is done makes none. -/
inductive After (g : Guidance) (limit : Nat) (target : Statement) : Nat → Search → Prop
  | start {root : ProofState} {x : Search} (begins : g.kernel.Begins target root)
      (leads : Task.Leads g (Task.start g) { root, limit } x) : After g limit target 0 x
  | rest {n : Nat} {x : Search} (earlier : After g limit target n x) (done : x.isDone = true) :
      After g limit target (n + 1) x
  | move {n : Nat} {x y : Search} (earlier : After g limit target n x) (going : x.isDone = false)
      (leads : Task.Leads g (Task.step g) x y) : After g limit target (n + 1) y

variable {g : Guidance} {limit n : Nat} {target : Statement} {x y : Search} {lenient : Prop}

theorem isDone_eq_false : x.isDone = false ↔ x.verdict = .unfinished := by simp [isDone]

/-- The innermost state is of the kernel's context, and its cursor gives successors only. -/
theorem IsSound.of_top (sound : x.IsSound g lenient target)
    (going : x.isDone = false) {f : Frame} {outer : List Frame} (top : x.stack = f :: outer) :
    f.state.ctx = g.kernel.ctx ∧
      f.cursor.supply.Each g.kernel.rules (g.kernel.IsSuccessor f.state) := by
  have hunder := sound.underWay (isDone_eq_false.1 going)
  rw [IsUnderWay, top] at hunder
  exact ⟨hunder.1.chain.ctx sound.begins.start.1, hunder.1.each⟩

/-- The child is one step further than the innermost state. -/
theorem IsSound.of_takes (sound : x.IsSound g lenient target)
    (going : x.isDone = false) {child : ProofState} (takes : x.Takes g child y) :
    ∃ (f : Frame) (outer : List Frame) (cursor : Cursor), x.stack = f :: outer ∧
      f.cursor.get = .ok child ∧ f.cursor.MovesTo g.kernel.rules (.ok ()) cursor ∧
      f.state.IsParent child ∧ child.ctx = g.kernel.ctx ∧
      y = { x with stack := { f with cursor } :: outer, expansions := x.expansions + 1 } := by
  rcases takes with @⟨f, outer, cursor, top, current, moved⟩
  obtain ⟨hctx, heach⟩ := sound.of_top going top
  have hparent := (Cursor.of_get_of_each current heach).isParent
  exact ⟨f, outer, cursor, top, current, moved, hparent, hparent.1.trans hctx, rfl⟩

/-- The child is reached from the target, so there is room for it. -/
theorem IsSound.isSafe_of_takes (bounded : g.kernel.IsBounded) (safe : g.IsSafe target.equation)
    (sound : x.IsSound g lenient target) (going : x.isDone = false) {child : ProofState}
    (takes : x.Takes g child y) : g.IsSafe child.forefront := by
  rcases takes with @⟨f, outer, cursor, top, current, moved⟩
  have hunder := sound.underWay (isDone_eq_false.1 going)
  rw [IsUnderWay, top] at hunder
  have hnext := Cursor.of_get_of_each current hunder.1.each
  rw [← sound.begins.start.2.1] at safe
  exact ⟨safe.1, safe.2.chain bounded (hunder.1.chain.step hnext)⟩

namespace After

theorem isSound (homed : g.kernel.IsHomed) (positive : 0 < limit)
    (safe : lenient ∨ g.IsSafe target.equation) (h : After g limit target n x) :
    x.IsSound g lenient target := by
  induction h with
  | start begins leads => exact (Task.ensures_start homed safe begins positive).of_leads leads
  | rest _ _ ih => exact ih
  | move _ going leads ih =>
    exact (Task.ensures_step homed safe ih (isDone_eq_false.1 going)).of_leads leads

theorem rest_add (h : After g limit target n x) (done : x.isDone = true) (m : Nat) :
    After g limit target (n + m) x := by
  induction m with
  | zero => exact h
  | succ m ih => exact .rest ih done

/-- **Induction on runs.** What holds of a search when it was started, and is kept up by each of
the moves listed, holds of the search after any number of moves. -/
theorem of_moves (homed : g.kernel.IsHomed) (positive : 0 < limit)
    (safe : lenient ∨ g.IsSafe target.equation) {P : Nat → Search → Prop}
    (proved : ∀ root, g.kernel.Begins target root → g.kernel.isTrivial root.forefront = true →
      P 0 (({ root, limit } : Search).prove root))
    (entered : ∀ root cursor, g.kernel.Begins target root →
      g.kernel.isTrivial root.forefront = false → g.Opened root cursor →
      P 0 { root, limit, stack := [⟨root, cursor⟩] })
    (rest : ∀ n x, x.isDone = true → P n x → P (n + 1) x)
    (move : ∀ n x y events, x.IsSound g lenient target → x.isDone = false → P n x →
      x.Moves g true events y → P (n + 1) y)
    (h : After g limit target n x) : P n x := by
  induction h with
  | @start root x begins leads =>
    obtain ⟨stats, t, source, source', fixed, run, rfl⟩ := leads
    rw [Task.runOn_start fixed] at run
    split at run
    next htrivial =>
      cases run
      exact proved root begins htrivial
    next hopen =>
      obtain ⟨-, -, ⟨cursor, -, hopened, hsearch⟩ | ⟨_, hfail, -⟩⟩ := Task.enter_cases fixed run
      · rw [hsearch]
        exact entered root cursor begins (by simpa using hopen) hopened
      · cases hfail
  | rest _ done ih => exact rest _ _ done ih
  | move earlier going leads ih =>
    have hsound := earlier.isSound homed positive safe
    obtain ⟨stats, t, source, source', fixed, run, rfl⟩ := leads
    obtain ⟨-, events, hmoves, -⟩ := Task.moves_of_step fixed
      (fun _ _ top => (hsound.of_top going top).2) run
    exact move _ _ _ events hsound going ih hmoves

end After

/-- A move leads to a search that was granted one more move. If it may meet a violation, this has to
be `lenient`. -/
theorem After.meets_step (homed : g.kernel.IsHomed) (positive : 0 < limit)
    (safe : lenient ∨ g.IsSafe target.equation) (h : After g limit target n x)
    (going : x.isDone = false) (stats : Statistics) :
    (Task.step g).Meets g.kernel.rules lenient ⟨x, stats⟩ fun _ t =>
      After g limit target (n + 1) t.search := by
  have hensures := Task.ensures_step homed safe (h.isSound homed positive safe)
    (isDone_eq_false.1 going)
  exact (hensures.leads stats).mono fun _ _ leads => .move h going leads

theorem After.meets_steps (homed : g.kernel.IsHomed) (positive : 0 < limit)
    (safe : lenient ∨ g.IsSafe target.equation) (count : Nat) (h : After g limit target n x)
    (stats : Statistics) :
    (Task.steps g count).Meets g.kernel.rules lenient ⟨x, stats⟩ fun _ t =>
      After g limit target (n + count) t.search := by
  induction count generalizing n x stats with
  | zero => exact .pure h
  | succ count ih =>
    refine Changes.meets_get.bind ?_
    rintro _ _ ⟨rfl, rfl⟩
    split
    next hdone => exact .pure (h.rest_add hdone (count + 1))
    next hgoing =>
      have hgoing : x.isDone = false := by simpa using hgoing
      refine (h.meets_step homed positive safe hgoing stats).bind fun _ t ht => ?_
      rw [Nat.add_comm count 1, ← Nat.add_assoc]
      exact ih ht t.stats

end Search

namespace Solver

/-- The solvers with the targets that have granted so many moves to each search, in steps of any
size. -/
inductive Advanced (k : Kernel) (plan : Plan) (maxDepth startingDepth : Nat)
    (targets : List Statement) : Nat → Solver → Prop
  | set {s s' : Solver} {source source' : Source}
      (made : make plan maxDepth startingDepth = .ok s) (fixed : source.rules = k.rules)
      (run : ((setTargets k targets).runOn s).run source = ((.ok (), s'), source')) :
      Advanced k plan maxDepth startingDepth targets 0 s'
  | step {n count : Nat} {s s' : Solver} {source source' : Source}
      (earlier : Advanced k plan maxDepth startingDepth targets n s)
      (fixed : source.rules = k.rules)
      (run : ((step k count).runOn s).run source = ((.ok (), s'), source')) :
      Advanced k plan maxDepth startingDepth targets (n + count) s'

/-- What is known of such a solver. -/
structure Grants (k : Kernel) (plan : Plan) (maxDepth startingDepth : Nat)
    (targets : List Statement) (n : Nat) (s : Solver) : Prop where
  guidance : s.guidance k = ⟨k, plan, maxDepth⟩
  positive : 0 < startingDepth
  nonempty : targets ≠ []
  searches : List.Forall₂
    (fun target x => Search.After ⟨k, plan, maxDepth⟩ startingDepth target n x)
    targets s.searches

variable {k : Kernel} {plan : Plan} {maxDepth startingDepth n : Nat} {targets : List Statement}
  {s s' : Solver}

theorem make_eq_ok_iff : make plan maxDepth startingDepth = .ok s ↔
    0 < startingDepth ∧ startingDepth < maxDepth ∧ s = { plan, maxDepth, startingDepth } := by
  simp only [make, bind_eq_ok, require_eq_ok, exists_const, decide_eq_true_eq,
    Nat.lt_iff_add_one_le,
    Nat.zero_add]
  constructor
  · rintro ⟨hpositive, hbelow, hs⟩
    exact ⟨hpositive, hbelow, (Except.ok.inj hs).symm⟩
  · rintro ⟨hpositive, hbelow, rfl⟩
    exact ⟨hpositive, hbelow, rfl⟩

variable {lenient : Prop}

theorem starts_after (homed : k.IsHomed) (positive : 0 < s.startingDepth) {target : Statement}
    (safe : lenient ∨ (s.guidance k).IsSafe target.equation) :
    s.Starts k lenient (fun target x => Search.After (s.guidance k) s.startingDepth target 0 x)
      target :=
  fun _ begins => (Task.ensures_start (g := s.guidance k) homed safe begins positive).leads.mono
    fun _ _ leads => .start begins leads

/-- No search for a proof of one of the targets meets a violation. -/
def AreSafe (k : Kernel) (plan : Plan) (targets : List Statement) : Prop :=
  plan.IsTotal ∧ ∀ target ∈ targets, k.HasRoom target.equation

theorem AreSafe.of_mem (safe : lenient ∨ AreSafe k plan targets) {target : Statement}
    (mem : target ∈ targets) (maxDepth : Nat) :
    lenient ∨ Guidance.IsSafe ⟨k, plan, maxDepth⟩ target.equation :=
  safe.imp_right fun safe => ⟨safe.1, safe.2 target mem⟩

theorem meets_setTargets_grants (homed : k.IsHomed)
    (made : make plan maxDepth startingDepth = .ok s) (safe : lenient ∨ AreSafe k plan targets)
    (accepted : lenient ∨ targets ≠ [] ∧ ∀ target ∈ targets, k.Accepts target) :
    (setTargets k targets).Meets k.rules lenient s fun _ s' =>
      s'.Grants k plan maxDepth startingDepth targets 0 := by
  obtain ⟨hpositive, -, rfl⟩ := make_eq_ok_iff.1 made
  refine (meets_setTargets (s := { plan, maxDepth, startingDepth }) (fun target mem =>
    starts_after homed hpositive (AreSafe.of_mem safe mem maxDepth)) accepted).mono ?_
  rintro _ _ ⟨searches, stats, hnonempty, rfl, hsearches⟩
  exact ⟨rfl, hpositive, hnonempty, hsearches⟩

theorem Grants.meets_step (homed : k.IsHomed) (safe : lenient ∨ AreSafe k plan targets)
    (h : s.Grants k plan maxDepth startingDepth targets n) {count : Nat} (positive : 0 < count) :
    (step k count).Meets k.rules lenient s fun _ s' =>
      s'.Grants k plan maxDepth startingDepth targets (n + count) := by
  have hengaged : s.isEngaged = true := by
    have hlength := h.searches.length_eq
    have hsome := List.length_pos_iff.2 h.nonempty
    simp only [isEngaged, Bool.not_eq_true', List.isEmpty_eq_false_iff_exists_mem]
    exact List.length_pos_iff_exists_mem.1 (by omega)
  have hmoves : ∀ target x, (target ∈ targets ∧
      Search.After ⟨k, plan, maxDepth⟩ startingDepth target n x) → ∀ stats,
      (Task.steps (s.guidance k) count).Meets k.rules lenient ⟨x, stats⟩ fun _ t =>
        Search.After ⟨k, plan, maxDepth⟩ startingDepth target (n + count) t.search := by
    intro target x ⟨hmem, hx⟩
    rw [h.guidance]
    exact hx.meets_steps (g := ⟨k, plan, maxDepth⟩) homed h.positive
      (AreSafe.of_mem safe hmem maxDepth) count
  have hsearches : List.Forall₂ (fun target x => target ∈ targets ∧
      Search.After ⟨k, plan, maxDepth⟩ startingDepth target n x) targets s.searches :=
    (List.forall₂_and_left _ _).2 ⟨fun _ hmem => hmem, h.searches⟩
  refine (Solver.meets_step hmoves hsearches hengaged positive).mono ?_
  rintro _ _ ⟨searches, stats, rfl, hsearches⟩
  exact ⟨h.guidance, h.positive, h.nonempty, hsearches⟩

theorem Advanced.grants (homed : k.IsHomed)
    (h : Advanced k plan maxDepth startingDepth targets n s) :
    s.Grants k plan maxDepth startingDepth targets n := by
  induction h with
  | set made fixed run =>
    have hset : (setTargets k targets).Meets k.rules True _ _ :=
      meets_setTargets_grants homed made (.inl trivial) (.inl trivial)
    exact (hset.of_runOn fixed run).2
  | step _ fixed run ih =>
    obtain ⟨-, hcount, -⟩ := of_step_ok run
    exact ((ih.meets_step homed (.inl trivial) hcount).of_runOn fixed run).2

theorem exists_setTargets (homed : k.IsHomed) (safe : AreSafe k plan targets)
    (made : make plan maxDepth startingDepth = .ok s) (nonempty : targets ≠ [])
    (accepted : ∀ target ∈ targets, k.Accepts target) {source : Source}
    (fixed : source.rules = k.rules) :
    ∃ s' source', ((setTargets k targets).runOn s).run source = ((.ok (), s'), source') ∧
      source'.rules = k.rules ∧ Advanced k plan maxDepth startingDepth targets 0 s' := by
  have hset : (setTargets k targets).Meets k.rules False s _ :=
    meets_setTargets_grants homed made (.inr safe) (.inr ⟨nonempty, accepted⟩)
  obtain ⟨_, s', source', hrun, hfixed, -⟩ := hset.exists_runOn id fixed
  exact ⟨s', source', hrun, hfixed, .set made fixed hrun⟩

theorem Advanced.exists_step (homed : k.IsHomed) (safe : AreSafe k plan targets)
    (h : Advanced k plan maxDepth startingDepth targets n s) {count : Nat} (positive : 0 < count)
    {source : Source} (fixed : source.rules = k.rules) :
    ∃ s' source', ((Solver.step k count).runOn s).run source = ((.ok (), s'), source') ∧
      source'.rules = k.rules ∧
      Advanced k plan maxDepth startingDepth targets (n + count) s' := by
  have hstep : (Solver.step k count).Meets k.rules False s _ :=
    (h.grants homed).meets_step homed (.inr safe) positive
  obtain ⟨_, s', source', hrun, hfixed, -⟩ := hstep.exists_runOn id fixed
  exact ⟨s', source', hrun, hfixed, .step h fixed hrun⟩

end Solver

end Equational
