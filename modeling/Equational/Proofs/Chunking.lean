import Equational.Proofs.Ending
import Equational.Proofs.Steadiness

/-!
# Only the number of moves matters

A solver lets its searches take turns, and between two steps anything else may be drawn. Where
the plan keeps to one order, none of this shows: what is told of a search depends on the target
and on the number of moves that the search was granted.

`Outline` is a search without its cursors and states. Of each state it knows the equations on
the way to it and those that are still to come. Its next move is a function, and the moves of a
search follow it (`Search.Outlines.next`).
-/

namespace Equational

/-- What is told of a search: its verdict, the equations of its proof, how many states it has found,
and how deep it may go and has gone. -/
structure Report where
  verdict : Verdict
  proof : Option (List Equation)
  expansions : Nat
  limit : Nat
  depth : Nat
  deriving DecidableEq

def Search.report (x : Search) : Report where
  verdict := x.verdict
  proof := x.proof.map ProofState.path
  expansions := x.expansions
  limit := x.limit
  depth := x.depth

theorem ProofState.length_path (s : ProofState) : s.path.length = s.depth + 1 := by
  simp [path, stages, depth]

/-! ### Outlines -/

/-- A search in which each state on the stack is the path to it, together with what is still to
come after it. -/
structure Outline where
  limit : Nat
  stack : List (List Equation × List Equation)
  cutOff : Bool := false
  verdict : Verdict := .unfinished
  proof : Option (List Equation) := none
  expansions : Nat := 1

namespace Outline

variable (k : Kernel) (maxDepth : Nat) (order : List Equation → List Equation)

/-- The search for a proof of the equation. -/
def start (limit : Nat) (e : Equation) : Outline :=
  if k.isTrivial e then { limit, stack := [], verdict := .proven, proof := some [e] }
  else { limit, stack := [([e], order [e])] }

/-- Takes the next equation after the innermost path. -/
def take (o : Outline) (path : List Equation) (e : Equation) : Outline :=
  if k.isTrivial e then { o with verdict := .proven, proof := some (path ++ [e]), stack := [] }
  else if path.length < o.limit then
    { o with stack := (path ++ [e], order (path ++ [e])) :: o.stack }
  else { o with cutOff := true }

/-- One move of a search for a proof of the equation. -/
def next (target : Equation) (o : Outline) : Outline :=
  match o.stack with
  | [] =>
    if o.cutOff && decide (o.limit < maxDepth) then
      { o with limit := o.limit + 1, cutOff := false, stack := [([target], order [target])] }
    else { o with verdict := .noProof }
  | (_, []) :: outer => { o with stack := outer }
  | (path, e :: rest) :: outer =>
    take k order { o with stack := (path, rest) :: outer, expansions := o.expansions + 1 } path e

/-- The search after so many moves, or fewer if it was done before. -/
def after (limit : Nat) (target : Equation) : Nat → Outline
  | 0 => start k order limit target
  | n + 1 =>
    let o := after limit target n
    if o.verdict = .unfinished then o.next k maxDepth order target else o

def report (o : Outline) : Report where
  verdict := o.verdict
  proof := o.proof
  expansions := o.expansions
  limit := o.limit
  depth := (o.stack.head?).elim 0 fun entry => entry.1.length - 1

end Outline

/-! ### Searches follow their outlines -/

/-- The path to the state is known, and what its cursor is still to give. -/
def Frame.Follows (k : Kernel) (f : Frame) (entry : List Equation × List Equation) : Prop :=
  f.state.path = entry.1 ∧ f.cursor.supply.Runs k.rules False
    (Delivers false ProofState.forefront f.state.IsParent entry.2)

structure Search.Outlines (k : Kernel) (x : Search) (o : Outline) : Prop where
  limit : x.limit = o.limit
  cutOff : x.cutOff = o.cutOff
  verdict : x.verdict = o.verdict
  proof : x.proof.map ProofState.path = o.proof
  expansions : x.expansions = o.expansions
  stack : List.Forall₂ (Frame.Follows k) x.stack o.stack

/-- The plan opens cursors that keep to the order. -/
def Guidance.KeepsTo (g : Guidance) (order : List Equation → List Equation) : Prop :=
  ∀ s : ProofState, s.ctx = g.kernel.ctx → g.kernel.HasRoom s.forefront →
    (g.plan.successors g.kernel s).Meets g.kernel.rules False fun c =>
      c.supply.Runs g.kernel.rules False
        (Delivers false ProofState.forefront s.IsParent (order s.path))

namespace Frame

variable {k : Kernel} {f : Frame} {path es : List Equation}

theorem follows_of_opened {g : Guidance} {order : List Equation → List Equation}
    (keeps : g.KeepsTo order) {s : ProofState} (hctx : s.ctx = g.kernel.ctx)
    (room : g.kernel.HasRoom s.forefront) {cursor : Cursor} (opened : g.Opened s cursor) :
    Follows g.kernel ⟨s, cursor⟩ (s.path, order s.path) := by
  obtain ⟨source, source', fixed, run⟩ := opened
  exact ⟨rfl, ((keeps s hctx room).of_runOn fixed run).2⟩

theorem Follows.take (h : f.Follows k (path, es)) {child : ProofState} {cursor : Cursor}
    (current : f.cursor.get = .ok child) (moved : f.cursor.MovesTo k.rules (.ok ()) cursor) :
    ∃ rest, es = child.forefront :: rest ∧ Follows k { f with cursor } (path, rest) := by
  have hruns := moved.runs current h.2
  obtain ⟨items, harranged, -⟩ := hruns.exists_items
  have hes : child.forefront :: items.map ProofState.forefront = es := harranged.eq
  refine ⟨items.map ProofState.forefront, hes.symm, h.1, hruns.mono ?_⟩
  intro others ⟨hothers, hparent⟩
  have hothers : child.forefront :: others.map ProofState.forefront = es := hothers.eq
  refine ⟨?_, fun a ha => hparent a (List.mem_cons_of_mem child ha)⟩
  exact (List.cons.inj (hothers.trans hes.symm)).2

theorem Follows.eq_nil (h : f.Follows k (path, es)) (ended : f.cursor.isValid = false) :
    es = [] := by
  have hnone := Cursor.runs_of_ended ended h.2
  exact hnone.1.eq.symm

end Frame

namespace Search

variable {g : Guidance} {order : List Equation → List Equation} {target : Statement}
  {x y : Search} {o : Outline} {limit n : Nat} {lenient : Prop}

theorem Outlines.report_eq {k : Kernel} (h : x.Outlines k o) : x.report = o.report := by
  have hdepth : x.depth = (o.stack.head?).elim 0 fun entry => entry.1.length - 1 := by
    have hstack := h.stack
    rw [Search.depth]
    revert hstack
    generalize x.stack = frames
    generalize o.stack = entries
    intro hstack
    cases hstack with
    | nil => rfl
    | @cons f entry _ _ hf _ =>
      have hlength := f.state.length_path
      rw [hf.1] at hlength
      simp [hlength]
  simp only [Search.report, Outline.report, h.verdict, h.proof, h.expansions, h.limit, hdepth]

/-- The child that is taken is the one that the outline takes. -/
theorem Outlines.of_takes (sound : x.IsSound g lenient target)
    (going : x.isDone = false) (h : x.Outlines g.kernel o) {child : ProofState}
    (takes : x.Takes g child y) :
    ∃ path rest outer, o.stack = (path, child.forefront :: rest) :: outer ∧
      child.ctx = g.kernel.ctx ∧ child.path = path ++ [child.forefront] ∧
      child.depth = path.length ∧ y.Outlines g.kernel
        { o with stack := (path, rest) :: outer, expansions := o.expansions + 1 } := by
  obtain ⟨f, outer, cursor, top, current, moved, hparent, hctx, rfl⟩ :=
    sound.of_takes going takes
  have hstack := h.stack
  rw [top] at hstack
  obtain ⟨⟨path, es⟩, outer', hf, houter, hentries⟩ := List.forall₂_cons_left_iff.1 hstack
  obtain ⟨rest, rfl, hrest⟩ := hf.take current moved
  have hpath : f.state.path = path := hf.1
  refine ⟨path, rest, outer', hentries, hctx, ?_, ?_, ?_⟩
  · rw [← hpath]
    exact hparent.path
  · rw [← hpath, f.state.length_path]
    exact hparent.depth
  · exact ⟨h.limit, h.cutOff, h.verdict, h.proof, congrArg (· + 1) h.expansions, .cons hrest houter⟩

/-- **One move** of a search is the one of its outline. -/
theorem Outlines.next (homed : g.kernel.IsHomed) (keeps : g.KeepsTo order)
    (safe : g.IsSafe target.equation) (sound : x.IsSound g lenient target)
    (going : x.isDone = false) (h : x.Outlines g.kernel o)
    {events : List Counter} (moves : x.Moves g true events y) :
    y.Outlines g.kernel (o.next g.kernel g.maxDepth order target.equation) := by
  cases moves with
  | fail empty last =>
    obtain ⟨hlimit, hcut, hverdict, hproof, hexpansions, hstack⟩ := h
    rw [empty, List.forall₂_nil_left_iff] at hstack
    rw [hcut, hlimit] at last
    rw [Outline.next, hstack, if_neg (by simp [last])]
    refine ⟨hlimit, hcut, rfl, hproof, hexpansions, ?_⟩
    rw [fail, empty]
    exact .nil
  | raise empty cut below opened =>
    obtain ⟨hlimit, hcut, hverdict, hproof, hexpansions, hstack⟩ := h
    obtain ⟨hctx, hfront, hpath, -⟩ := sound.begins.start
    rw [empty, List.forall₂_nil_left_iff] at hstack
    have hroot := Frame.follows_of_opened keeps hctx (hfront ▸ safe.2) opened
    rw [hpath, hfront] at hroot
    rw [Outline.next, hstack, if_pos (by simp [← hcut, ← hlimit, cut, below])]
    exact ⟨congrArg (· + 1) hlimit, rfl, hverdict, hproof, hexpansions, .cons hroot .nil⟩
  | leave top ended =>
    obtain ⟨hlimit, hcut, hverdict, hproof, hexpansions, hstack⟩ := h
    rw [top] at hstack
    obtain ⟨⟨path, es⟩, outer', hf, houter, hentries⟩ := List.forall₂_cons_left_iff.1 hstack
    rw [hf.eq_nil ended] at hentries
    rw [Outline.next, hentries]
    exact ⟨hlimit, hcut, hverdict, hproof, hexpansions, houter⟩
  | prove takes trivial =>
    obtain ⟨path, rest, outer, hentries, -, hpath, -, hy⟩ := h.of_takes sound going takes
    rw [Outline.next, hentries]
    simp only [Outline.take, trivial, if_true]
    exact ⟨hy.limit, hy.cutOff, rfl, congrArg some hpath, hy.expansions, .nil⟩
  | enter takes hnew below opened =>
    obtain ⟨path, rest, outer, hentries, hctx, hpath, hdepth, hy⟩ :=
      h.of_takes sound going takes
    have hsafe := sound.isSafe_of_takes homed.bounded safe going takes
    have hchild := Frame.follows_of_opened keeps hctx hsafe.2 opened
    rw [hpath] at hchild
    rw [hdepth, h.limit] at below
    rw [Outline.next, hentries]
    simp only [Outline.take, hnew, below, if_true, Bool.false_eq_true, if_false]
    exact ⟨hy.limit, hy.cutOff, hy.verdict, hy.proof, hy.expansions, .cons hchild hy.stack⟩
  | cut takes hnew beyond =>
    obtain ⟨path, rest, outer, hentries, -, -, hdepth, hy⟩ := h.of_takes sound going takes
    rw [hdepth, h.limit] at beyond
    rw [Outline.next, hentries]
    simp only [Outline.take, hnew, Nat.not_lt.2 beyond, Bool.false_eq_true, if_false]
    exact ⟨hy.limit, rfl, hy.verdict, hy.proof, hy.expansions, hy.stack⟩

/-- A search that was granted so many moves is where its outline is then. -/
theorem After.outlines (homed : g.kernel.IsHomed) (keeps : g.KeepsTo order) (positive : 0 < limit)
    (safe : g.IsSafe target.equation) (h : After g limit target n x) :
    x.Outlines g.kernel (.after g.kernel g.maxDepth order limit target.equation n) := by
  refine h.of_moves homed positive (.inl trivial) (P := fun n x => x.Outlines g.kernel
    (.after g.kernel g.maxDepth order limit target.equation n)) ?_ ?_ ?_ ?_
  · intro root begins trivial
    obtain ⟨-, hfront, hpath, -⟩ := begins.start
    rw [hfront] at trivial hpath
    rw [Outline.after, Outline.start, if_pos trivial]
    exact ⟨rfl, rfl, rfl, congrArg some hpath, rfl, .nil⟩
  · intro root cursor begins hnew opened
    obtain ⟨hctx, hfront, hpath, -⟩ := begins.start
    have hroot := Frame.follows_of_opened keeps hctx (hfront ▸ safe.2) opened
    rw [hpath, hfront] at hroot
    rw [hfront] at hnew
    rw [Outline.after, Outline.start, if_neg (by simp [hnew])]
    exact ⟨rfl, rfl, rfl, rfl, rfl, .cons hroot .nil⟩
  · intro n x done ih
    have hdone : x.verdict ≠ .unfinished := by simpa [isDone] using done
    rw [ih.verdict] at hdone
    rw [Outline.after]
    simp only [if_neg hdone]
    exact ih
  · intro n x y events sound going ih moves
    have hgoing := isDone_eq_false.1 going
    rw [ih.verdict] at hgoing
    rw [Outline.after]
    simp only [if_pos hgoing]
    exact ih.next homed keeps safe sound going moves

end Search

theorem Kernel.Begins.isKnown {k : Kernel} {target : Statement} {s : ProofState}
    (h : k.Begins target s) :
    (target.ctx.same k.ctx || k.ctx.isExtensionOf target.ctx) = true := by
  obtain ⟨source, source', run⟩ := h
  cases haccepts : target.ctx.same k.ctx || k.ctx.isExtensionOf target.ctx with
  | true => rfl
  | false =>
    rw [prove, haccepts] at run
    cases run

namespace Solver

variable {k : Kernel} {plan : Plan} {maxDepth startingDepth n : Nat} {targets : List Statement}
  {s new : Solver}

def reports (s : Solver) : List Report := s.searches.map Search.report

/-- Where there is room for the targets, what is told of the searches follows from the targets and
the number of moves. -/
theorem Advanced.exists_reports (homed : k.IsHomed) (plain : k.options.randomised = false)
    (steady : plan.IsSteady) (maxDepth startingDepth : Nat) :
    ∃ told : Statement → Nat → Report, ∀ targets n s, AreSafe k plan targets →
      Advanced k plan maxDepth startingDepth targets n s → s.reports = targets.map (told · n) := by
  obtain ⟨order, horder⟩ := steady.exists_order homed plain
  have hkeeps : Guidance.KeepsTo ⟨k, plan, maxDepth⟩ order := horder
  refine ⟨fun target n => (Outline.after k maxDepth order startingDepth target.equation n).report,
    ?_⟩
  intro targets n s safe advanced
  have hgrants := advanced.grants homed
  have hsearches : List.Forall₂ (fun target x => target ∈ targets ∧
      Search.After ⟨k, plan, maxDepth⟩ startingDepth target n x) targets s.searches :=
    (List.forall₂_and_left _ _).2 ⟨fun _ hmem => hmem, hgrants.searches⟩
  rw [reports, ← List.forall₂_eq_eq_eq, List.forall₂_map_left_iff, List.forall₂_map_right_iff]
  refine (hsearches.imp fun target x ⟨hmem, hafter⟩ => ?_).flip
  exact (hafter.outlines (g := ⟨k, plan, maxDepth⟩) homed hkeeps hgrants.positive
    ⟨safe.1, safe.2 target hmem⟩).report_eq

theorem Advanced.accepts (homed : k.IsHomed)
    (h : Advanced k plan maxDepth startingDepth targets n s) {target : Statement}
    (mem : target ∈ targets) (room : k.HasRoom target.equation) : k.Accepts target := by
  have hgrants := h.grants homed
  have hbegins : List.Forall₂ (fun target x => (∃ root, k.Begins target root) ∧ True) targets
      s.searches :=
    hgrants.searches.imp fun _ _ hafter =>
      ⟨⟨_, (hafter.isSound homed hgrants.positive (.inl trivial)).begins⟩, trivial⟩
  obtain ⟨root, hbegins⟩ := ((List.forall₂_and_left targets s.searches).1 hbegins).1 target mem
  exact ⟨hbegins.isKnown, room.narrow_vars⟩

/-- **Chunks and batches do not matter.** Let there be no random choices, and let the plan rank by a
steady heuristic and a fixed size, if it ranks at all. Let there be room for the targets. Whatever
moves were made before: a step of `a` and one of `b` lead to what one step of `a + b` leads to, and
for each target to what a solver that has this target alone comes to. Nothing depends on what is
drawn in between. -/
theorem chunks_and_batches (built : k.Built) (plain : k.options.randomised = false)
    (steady : plan.IsSteady) (made : make plan maxDepth startingDepth = .ok new)
    (room : ∀ target ∈ targets, k.HasRoom target.equation)
    (advanced : Advanced k plan maxDepth startingDepth targets n s) {a b : Nat} (ha : 0 < a)
    (hb : 0 < b) :
    ∃ told : List Report,
      (∀ σ τ : Source, σ.rules = k.rules → τ.rules = k.rules → ∃ s₁ s₂ σ' τ',
        ((step k a).runOn s).run σ = ((.ok (), s₁), σ') ∧
        ((step k b).runOn s₁).run τ = ((.ok (), s₂), τ') ∧ s₂.reports = told) ∧
      (∀ σ : Source, σ.rules = k.rules → ∃ s₁ σ',
        ((step k (a + b)).runOn s).run σ = ((.ok (), s₁), σ') ∧ s₁.reports = told) ∧
      ∀ (i : Nat) (target : Statement) (σ τ : Source), targets[i]? = some target →
        σ.rules = k.rules → τ.rules = k.rules → ∃ s₁ s₂ σ' τ',
          ((setTargets k [target]).runOn new).run σ = ((.ok (), s₁), σ') ∧
          ((step k (n + (a + b))).runOn s₁).run τ = ((.ok (), s₂), τ') ∧
          s₂.reports = told[i]?.toList := by
  obtain ⟨told, htold⟩ := Advanced.exists_reports built.homed plain steady maxDepth startingDepth
  have hsafe : AreSafe k plan targets := ⟨steady.isTotal, room⟩
  refine ⟨targets.map (told · (n + (a + b))), ?_, ?_, ?_⟩
  · intro σ τ hσ hτ
    obtain ⟨s₁, σ', hrun, -, hadvanced⟩ := advanced.exists_step built.homed hsafe ha hσ
    obtain ⟨s₂, τ', hrun', -, hadvanced'⟩ := hadvanced.exists_step built.homed hsafe hb hτ
    rw [← Nat.add_assoc]
    exact ⟨s₁, s₂, σ', τ', hrun, hrun', htold _ _ _ hsafe hadvanced'⟩
  · intro σ hσ
    obtain ⟨s₁, σ', hrun, -, hadvanced⟩ :=
      advanced.exists_step built.homed hsafe (Nat.add_pos_left ha b) hσ
    exact ⟨s₁, σ', hrun, htold _ _ _ hsafe hadvanced⟩
  · intro i target σ τ hi hσ hτ
    have hmem := List.mem_of_getElem? hi
    have haccepts := advanced.accepts built.homed hmem (room target hmem)
    have halone : AreSafe k plan [target] := ⟨hsafe.1, by simpa using room target hmem⟩
    obtain ⟨s₁, σ', hrun, -, hadvanced⟩ := exists_setTargets built.homed halone made
      (List.cons_ne_nil target []) (by simpa using haccepts) hσ
    obtain ⟨s₂, τ', hrun', -, hadvanced'⟩ := hadvanced.exists_step built.homed halone
      (show 0 < n + (a + b) by omega) hτ
    refine ⟨s₁, s₂, σ', τ', hrun, hrun', ?_⟩
    rw [htold _ _ _ halone hadvanced', List.getElem?_map, hi, Nat.zero_add]
    rfl

/-- A plan that ranks by the edit distance and keeps two successors at hand. -/
def rankingTwo : Plan :=
  { heuristic := some (EditDistance.heuristic ⟨1, 2⟩), stopping := some (.fixed 2) }

theorem isSteady_rankingTwo : rankingTwo.IsSteady := by
  intro h stopping hheuristic hstopping
  cases hheuristic
  cases hstopping
  exact ⟨EditDistance.isSteady_heuristic ⟨1, 2⟩, 2, by decide, rfl⟩

/-- Steps of three and of four moves come to what one step of seven comes to, and a solver that has
the second target alone comes to the same. -/
theorem chunks_and_batches_leftBlind :
    ∃ s s₁ s₂ s₃ alone,
      Advanced (.leftBlind {}) rankingTwo 3 1 [.leftBlind, .inverseTwice] 0 s ∧
      (∃ σ σ', ((step (.leftBlind {}) 3).runOn s).run σ = ((.ok (), s₁), σ')) ∧
      (∃ σ σ', ((step (.leftBlind {}) 4).runOn s₁).run σ = ((.ok (), s₂), σ')) ∧
      (∃ σ σ', ((step (.leftBlind {}) 7).runOn s).run σ = ((.ok (), s₃), σ')) ∧
      Advanced (.leftBlind {}) rankingTwo 3 1 [.inverseTwice] 7 alone ∧
      s₂.reports = s₃.reports ∧ alone.reports = s₃.reports[1]?.toList := by
  let k : Kernel := .leftBlind {}
  have hbuilt : k.Built := Kernel.built_leftBlind {}
  have hmade : make rankingTwo 3 1 =
      .ok { plan := rankingTwo, maxDepth := 3, startingDepth := 1 } :=
    rfl
  have hroom : ∀ target ∈ [Statement.leftBlind, .inverseTwice], k.HasRoom target.equation := by
    intro target hmem
    obtain rfl | rfl : target = .leftBlind ∨ target = .inverseTwice := by simpa using hmem
    · exact Kernel.hasRoom_leftBlind {}
    · exact Kernel.hasRoom_inverseTwice {}
  have haccepts : ∀ target ∈ [Statement.leftBlind, .inverseTwice], k.Accepts target := by
    intro target hmem
    refine ⟨?_, (hroom target hmem).narrow_vars⟩
    obtain rfl | rfl : target = .leftBlind ∨ target = .inverseTwice := by simpa using hmem
    · rfl
    · rfl
  have hsource : k.source.rules = k.rules := rfl
  obtain ⟨s, _, -, -, hset⟩ := exists_setTargets hbuilt.homed
    ⟨isSteady_rankingTwo.isTotal, hroom⟩ hmade (List.cons_ne_nil _ _) haccepts hsource
  obtain ⟨told, hchunks, hwhole, halone⟩ := chunks_and_batches hbuilt rfl isSteady_rankingTwo hmade
    hroom hset (show 0 < 3 by decide) (show 0 < 4 by decide)
  obtain ⟨s₁, s₂, _, _, hthree, hfour, htold⟩ := hchunks _ _ hsource hsource
  obtain ⟨s₃, _, hseven, htold'⟩ := hwhole _ hsource
  obtain ⟨_, alone, _, _, hone, hsteps, htold''⟩ := halone 1 .inverseTwice _ _ rfl hsource hsource
  exact ⟨s, s₁, s₂, s₃, alone, hset, ⟨_, _, hthree⟩, ⟨_, _, hfour⟩, ⟨_, _, hseven⟩,
    .step (.set hmade hsource hone) hsource hsteps, htold.trans htold'.symm,
    htold' ▸ htold''⟩

/-- Steps towards the targets, from a new solver with the plan on. -/
def runTowards (k : Kernel) (plan : Plan) (maxDepth startingDepth : Nat) (targets : List Statement)
    (steps : Changes Solver Unit) : Except Violation Unit × Solver :=
  (((do setTargets k targets; steps : Changes Solver Unit).runOn
    { plan, maxDepth, startingDepth }).run k.source).1

/-- Steps towards two equal targets, whose states are ranked by benefits that were recorded. -/
def recordedRun : Changes Solver Unit → Except Violation Unit × Solver :=
  runTowards (.involution {})
    { heuristic := some (.rehearsed 0 #[1, 0]), stopping := some (.fixed 2) } 3 2
    [.sixfold, .sixfold]

/-- Steps towards two targets, of which the first one comes to a state for which there is no room.
-/
def remoteRun : Changes Solver Unit → Except Violation Unit × Solver :=
  runTowards (.leftBlind {}) {} 3 1 [.remoteSquare, .inverseTwice]

/-- Recorded benefits are played back in the order in which they are asked for, whatever they are
asked for. So it does matter whether the second search makes its first move before or after the
first search makes its second one. Where the fourth move of the first search fails, the second
search has made three moves if they were asked for before, and none otherwise. -/
theorem chunks_matter_if_recorded :
    (((recordedRun (do step (.involution {}) 1; step (.involution {}) 1)).1.isOk,
      (recordedRun (do step (.involution {}) 1; step (.involution {}) 1)).2.verdicts) =
        (true, [.unfinished, .proven]) ∧
      ((recordedRun (step (.involution {}) 2)).1.isOk,
        (recordedRun (step (.involution {}) 2)).2.verdicts) =
          (true, [.unfinished, .unfinished])) ∧
    ((remoteRun (do step (.leftBlind {}) 3; step (.leftBlind {}) 1)).1.isOk,
      (remoteRun (do step (.leftBlind {}) 3; step (.leftBlind {}) 1)).2.searches.map
        (·.expansions)) = (false, [3, 4]) ∧
      ((remoteRun (step (.leftBlind {}) 4)).1.isOk,
        (remoteRun (step (.leftBlind {}) 4)).2.searches.map (·.expansions)) = (false, [3, 1]) := by
  decide +kernel

end Solver

end Equational
