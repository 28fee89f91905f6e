import Equational.Proofs.Moves
import Mathlib.Algebra.GroupWithZero.Nat

/-!
# Every search comes to its end

The number of moves that it takes to search through everything within a depth can be said
beforehand: it depends on the equations that can come next, and not on the order in which
they are taken. Every move pays for one of these. What is still owed is the sum over the
frames on the stack, of which each owes for what its cursor is still to give, and the passes
with a higher limit.

So where no violation is met, a search comes to its end within a number of moves that depends on
the target, the rules and the depths, and not on the plan, on what is drawn or on the time that is
taken.
-/

namespace Equational

namespace Kernel

/-- The moves to search through all that can be reached in so many steps from the end of a path: one
to take each equation that can come next, those to search on from there, and one to leave. -/
noncomputable def effort (k : Kernel) : Nat → List Equation → Equation → Nat
  | 0, _, _ => 0
  | n + 1, path, e =>
    1 + ((k.after path e).map fun next => 1 + k.effort n (path ++ [next]) next).sum

/-- The moves of `n` more passes, each with a limit raised by one, and the one to give up. -/
noncomputable def passes (k : Kernel) (path : List Equation) (e : Equation) : Nat → Nat → Nat
  | _, 0 => 1
  | limit, n + 1 => 1 + k.effort (limit + 1) path e + k.passes path e (limit + 1) n

/-- The moves to search for a proof of the target. -/
noncomputable def totalEffort (k : Kernel) (startingDepth maxDepth : Nat) (target : Statement) :
    Nat :=
  let e := target.equation
  k.effort startingDepth [e] e + k.passes [e] e startingDepth (maxDepth - startingDepth)

theorem passes_pos (k : Kernel) (path : List Equation) (e : Equation) (limit n : Nat) :
    0 < k.passes path e limit n := by
  cases n with
  | zero => simp [passes]
  | succ n => simp only [passes]; omega

end Kernel

/-! ### What a frame owes -/

namespace Frame

/-- The moves to take a successor of the state and search on from there. -/
noncomputable def share (k : Kernel) (limit : Nat) (s t : ProofState) : Nat :=
  1 + k.effort (limit - s.depth - 1) (s.path ++ [t.forefront]) t.forefront

/-- The moves that are left to be made in a frame. -/
def Owes (k : Kernel) (limit : Nat) (f : Frame) (m : Nat) : Prop :=
  f.cursor.supply.Runs k.rules False fun items =>
    m = 1 + (items.map (share k limit f.state)).sum

variable {k : Kernel} {limit m : Nat} {f : Frame} {s : ProofState} {cursor : Cursor}

theorem owes_of_isOver (hctx : s.ctx = k.ctx) (within : s.depth < limit)
    (isOver : cursor.IsOver k False s) :
    Owes k limit ⟨s, cursor⟩ (k.effort (limit - s.depth) s.path s.forefront) := by
  refine isOver.2.mono fun items hperm => ?_
  obtain ⟨n, hn⟩ : ∃ n, limit - s.depth = n + 1 := ⟨limit - s.depth - 1, by omega⟩
  rw [hn, Kernel.effort, ← Kernel.expected_eq_after hctx]
  -- the order in which the equations come does not matter for the sum
  have hsum := (hperm.map fun next => 1 + k.effort n (s.path ++ [next]) next).sum_nat
  rw [← hsum, List.map_map]
  have hshare : share k limit s = (fun next => 1 + k.effort n (s.path ++ [next]) next) ∘
      ProofState.forefront := by
    funext t
    simp [share, hn]
  rw [hshare]

theorem Owes.take (h : f.Owes k limit m) {child : ProofState} (current : f.cursor.get = .ok child)
    (moved : f.cursor.MovesTo k.rules (.ok ()) cursor) :
    ∃ m', Owes k limit { f with cursor } m' ∧ m = share k limit f.state child + m' := by
  have hruns := moved.runs current h
  obtain ⟨items, hitems⟩ := hruns.exists_items
  rw [List.map_cons, List.sum_cons] at hitems
  refine ⟨1 + (items.map (share k limit f.state)).sum, ?_, by omega⟩
  refine hruns.mono fun rest hrest => ?_
  rw [List.map_cons, List.sum_cons] at hrest
  show _ = 1 + (rest.map (share k limit f.state)).sum
  omega

theorem Owes.eq_one (h : f.Owes k limit m) (ended : f.cursor.isValid = false) : m = 1 := by
  have hnone := Cursor.runs_of_ended ended h
  simpa using hnone

end Frame

/-! ### What a search owes -/

namespace Search

/-- The moves that are left to be made until the search gives up. -/
def Owes (g : Guidance) (x : Search) (m : Nat) : Prop :=
  ∃ costs, List.Forall₂ (Frame.Owes g.kernel x.limit) x.stack costs ∧
    m = costs.sum +
      g.kernel.passes x.root.path x.root.forefront x.limit (g.maxDepth - x.limit)

variable {g : Guidance} {limit n m : Nat} {target : Statement} {x y : Search}

theorem Owes.pos (h : x.Owes g m) : 0 < m := by
  obtain ⟨costs, -, rfl⟩ := h
  have hpasses := g.kernel.passes_pos x.root.path x.root.forefront x.limit (g.maxDepth - x.limit)
  omega

/-- **One move** ends the search or leaves less to be done. -/
theorem Owes.moves (homed : g.kernel.IsHomed) (safe : g.IsSafe target.equation)
    (sound : x.IsSound g False target) (going : x.isDone = false) (h : x.Owes g m)
    {events : List Counter} (moves : x.Moves g true events y) :
    y.isDone = true ∨ ∃ m' < m, y.Owes g m' := by
  obtain ⟨costs, hcosts, rfl⟩ := h
  cases moves with
  | fail => exact .inl rfl
  | prove takes trivial => exact .inl rfl
  | raise empty cut below opened =>
    obtain ⟨hctx, hfront, -, hdepth⟩ := sound.begins.start
    have hframe := Frame.owes_of_isOver (k := g.kernel) hctx
      (show x.root.depth < x.limit + 1 by omega) (opened.isOver homed hctx (.inr (hfront ▸ safe)))
    rw [empty, List.forall₂_nil_left_iff] at hcosts
    obtain ⟨n, hn⟩ : ∃ n, g.maxDepth - x.limit = n + 1 := ⟨g.maxDepth - x.limit - 1, by omega⟩
    refine .inr ⟨_, ?_, [_], .cons hframe .nil, rfl⟩
    rw [hcosts, hn, Kernel.passes, show g.maxDepth - (x.limit + 1) = n by omega, hdepth]
    simp
  | @leave f outer top ended =>
    rw [top] at hcosts
    obtain ⟨cost, rest, hcost, hrest, rfl⟩ := List.forall₂_cons_left_iff.1 hcosts
    refine .inr ⟨_, ?_, rest, hrest, rfl⟩
    rw [hcost.eq_one ended, List.sum_cons]
    dsimp only
    omega
  | @enter child y cursor takes hnew below opened =>
    obtain ⟨f, outer, left, top, current, moved, hparent, hctx, rfl⟩ :=
      sound.of_takes going takes
    rw [top] at hcosts
    obtain ⟨cost, rest, hcost, hrest, rfl⟩ := List.forall₂_cons_left_iff.1 hcosts
    obtain ⟨cost', hcost', rfl⟩ := hcost.take current moved
    have hsafe : g.IsSafe child.forefront := sound.isSafe_of_takes homed.bounded safe going takes
    have hframe :=
      Frame.owes_of_isOver (k := g.kernel) hctx below (opened.isOver homed hctx (.inr hsafe))
    rw [hparent.depth, hparent.path] at hframe
    refine .inr ⟨_, ?_, _ :: cost' :: rest, .cons hframe (.cons hcost' hrest), rfl⟩
    simp only [List.sum_cons, Frame.share, Nat.sub_sub]
    omega
  | cut takes hnew beyond =>
    obtain ⟨f, outer, left, top, current, moved, -, -, rfl⟩ := sound.of_takes going takes
    rw [top] at hcosts
    obtain ⟨cost, rest, hcost, hrest, rfl⟩ := List.forall₂_cons_left_iff.1 hcosts
    obtain ⟨cost', hcost', rfl⟩ := hcost.take current moved
    refine .inr ⟨_, ?_, cost' :: rest, .cons hcost' hrest, rfl⟩
    simp only [List.sum_cons, Frame.share]
    omega

/-- A search that is not done still owes what is left of its effort. -/
theorem After.owes (homed : g.kernel.IsHomed) (positive : 0 < limit)
    (safe : g.IsSafe target.equation) (h : After g limit target n x) :
    x.isDone = true ∨ ∃ m, x.Owes g m ∧ m + n ≤ g.kernel.totalEffort limit g.maxDepth target := by
  have hsafe : False ∨ g.IsSafe target.equation := .inr safe
  refine h.of_moves homed positive hsafe (P := fun n x => x.isDone = true ∨
    ∃ m, x.Owes g m ∧ m + n ≤ g.kernel.totalEffort limit g.maxDepth target) ?_ ?_ ?_ ?_
  · intro root _ _
    exact .inl rfl
  · intro root cursor hbegins _ hopened
    obtain ⟨hctx, hfront, hpath, hdepth⟩ := hbegins.start
    have hframe := Frame.owes_of_isOver (k := g.kernel) hctx (show root.depth < limit by omega)
      (hopened.isOver homed hctx (.inr (hfront ▸ safe)))
    refine .inr ⟨_, ⟨[_], .cons hframe .nil, rfl⟩, ?_⟩
    rw [Kernel.totalEffort, hdepth, hpath, hfront]
    simp
  · intro n x done _
    exact .inl done
  · intro n x y events sound going ih moves
    rcases ih with done | ⟨m, howes, hle⟩
    · rw [done] at going
      cases going
    · rcases howes.moves homed safe sound going moves with done | ⟨m', hlt, howes'⟩
      · exact .inl done
      · exact .inr ⟨m', howes', by omega⟩

/-- **Every search comes to its end.** -/
theorem After.isDone_of_totalEffort_le (homed : g.kernel.IsHomed) (positive : 0 < limit)
    (safe : g.IsSafe target.equation) (h : After g limit target n x)
    (enough : g.kernel.totalEffort limit g.maxDepth target ≤ n) : x.isDone = true := by
  rcases h.owes homed positive safe with done | ⟨m, howes, hle⟩
  · exact done
  · have hpos := howes.pos
    omega

end Search

namespace Solver

variable {k : Kernel}

/-- **Every search comes to its end.** For each target there is a number of moves after which its
search is done. It does not depend on the plan, nor on what else the solver is to prove, what is
drawn and what time is taken. Where the heuristic always has a benefit to predict, a strategy can be
made and there is room for the targets, no violation is met when they are set, nor on the way. -/
theorem searches_end (built : k.Built) (maxDepth startingDepth : Nat) :
    ∃ bound : Statement → Nat, ∀ (plan : Plan) (new : Solver),
      make plan maxDepth startingDepth = .ok new → plan.IsTotal →
      ∀ targets, targets ≠ [] →
        (∀ target ∈ targets, k.Accepts target ∧ k.HasRoom target.equation) →
        (∀ source, source.rules = k.rules → ∃ s source',
          ((setTargets k targets).runOn new).run source = ((.ok (), s), source')) ∧
        ∀ n s, Advanced k plan maxDepth startingDepth targets n s →
          List.Forall₂ (fun target x => bound target ≤ n → x.verdict ≠ .unfinished)
            targets s.searches ∧
          ∀ count source, 0 < count → source.rules = k.rules → ∃ s' source',
            ((step k count).runOn s).run source = ((.ok (), s'), source') := by
  refine ⟨k.totalEffort startingDepth maxDepth, ?_⟩
  intro plan new made total targets nonempty accepted
  have hsafe : AreSafe k plan targets := ⟨total, fun target mem => (accepted target mem).2⟩
  refine ⟨fun source fixed => ?_, fun n s advanced => ⟨?_, fun count source positive fixed => ?_⟩⟩
  · obtain ⟨s, source', hrun, -⟩ := exists_setTargets built.homed hsafe made nonempty
      (fun target mem => (accepted target mem).1) fixed
    exact ⟨s, source', hrun⟩
  · have hgrants := advanced.grants built.homed
    have hsearches : List.Forall₂ (fun target x => target ∈ targets ∧
        Search.After ⟨k, plan, maxDepth⟩ startingDepth target n x) targets s.searches :=
      (List.forall₂_and_left _ _).2 ⟨fun _ hmem => hmem, hgrants.searches⟩
    refine hsearches.imp fun target x ⟨hmem, hafter⟩ enough => ?_
    have hdone := hafter.isDone_of_totalEffort_le (g := ⟨k, plan, maxDepth⟩) built.homed
      hgrants.positive ⟨total, hsafe.2 target hmem⟩ enough
    simpa [Search.isDone] using hdone
  · obtain ⟨s', source', hrun, -⟩ := advanced.exists_step built.homed hsafe positive fixed
    exact ⟨s', source', hrun⟩

/-- A plan that ranks by the edit distance, with the strategy that estimates what is to come. -/
def estimating : Plan :=
  { heuristic := some (EditDistance.heuristic ⟨1, 2⟩), stopping := some (.basic 2 1 0.5) }

theorem isTotal_estimating : estimating.IsTotal := by
  intro h stopping hheuristic hstopping
  cases hheuristic
  cases hstopping
  exact ⟨EditDistance.isTotal_heuristic _, _, rfl⟩

/-- With random choices and estimates, the search for a proof comes to its end. -/
theorem searches_end_leftBlind :
    ∃ n s, Advanced (.leftBlind { randomised := true }) estimating 3 1 [.inverseTwice] n s ∧
      s.isDone = true := by
  let k := Kernel.leftBlind { randomised := true }
  have hmade : make estimating 3 1 =
      .ok { plan := estimating, maxDepth := 3, startingDepth := 1 } := rfl
  obtain ⟨bound, hbound⟩ := searches_end (Kernel.built_leftBlind { randomised := true }) 3 1
  have haccepted : ∀ target ∈ [Statement.inverseTwice],
      k.Accepts target ∧ k.HasRoom target.equation := by
    intro target hmem
    obtain rfl := List.mem_singleton.1 hmem
    have hroom : k.HasRoom Statement.inverseTwice.equation := Kernel.hasRoom_inverseTwice _
    exact ⟨⟨rfl, hroom.narrow_vars⟩, hroom⟩
  obtain ⟨hset, hruns⟩ := hbound estimating _ hmade isTotal_estimating [.inverseTwice] (by simp)
    haccepted
  obtain ⟨s, source, hrun⟩ := hset k.source rfl
  have hstart : Advanced k estimating 3 1 [.inverseTwice] 0 s := .set hmade rfl hrun
  obtain ⟨s', source', hrun'⟩ :=
    (hruns _ _ hstart).2 (bound .inverseTwice + 1) k.source (Nat.succ_pos _) rfl
  have hend := Advanced.step hstart rfl hrun'
  refine ⟨_, s', hend, ?_⟩
  obtain ⟨x, _, hx, hnil, hsearches⟩ := List.forall₂_cons_left_iff.1 (hruns _ _ hend).1
  rw [List.forall₂_nil_left_iff] at hnil
  simpa [isDone, hsearches, hnil, Search.isDone] using hx (by omega)

end Solver

/-! ### A search that never ends -/

/-- The one rewrite of its left side leads to the remote statement. -/
def Statement.remoteSquare : Statement :=
  .ofEquation .leftBlind
    ⟨.app 0 [.var 18446744073709551615, .var 18446744073709551615], .const 2⟩

theorem Kernel.mem_expansions_remoteSquare {e : Equation} :
    e ∈ (leftBlind {}).expansions .leftBlind Statement.remoteSquare.equation ↔
      e = Statement.remote.equation := by
  let rule : Equation := ⟨.app 0 [.var 0, .var 1], .app 1 [.var 1]⟩
  rw [mem_expansions (built_leftBlind {}).homed.bounded]
  show (Statement.remoteSquare.equation.above 2).Rewrites [rule] [2] e ↔ _
  have habove : Statement.remoteSquare.equation.above 2 = Statement.remoteSquare.equation := by
    decide +kernel
  rw [habove]
  constructor
  · rintro @⟨site, used, σ, u, here, known, found, -, result⟩
    change site ∈ [_, _, _, _] at here
    simp only [List.mem_cons, List.not_mem_nil, or_false] at here
    -- Only the product is an instance of a side of the axiom.
    rcases known.imp List.mem_singleton.1 List.mem_singleton.1 with rfl | hback
    · rcases here with rfl | rfl | rfl | rfl
      · change Term.app 0 [σ 0, σ 1] = .app 0 [.var _, .var _] at found
        injection found with _ hargs
        injection hargs with _ hargs
        injection hargs with hlast
        change Term.app 1 [σ 1] = u at result
        rw [← result, hlast]
        rfl
      all_goals cases found
    · obtain rfl : used = rule.transpose := congrArg Equation.transpose hback
      rcases here with rfl | rfl | rfl | rfl
      all_goals cases found
  · rintro rfl
    let site : Site := ⟨.lhs, [], Statement.remoteSquare.equation.lhs⟩
    have hsite : site ∈ Statement.remoteSquare.equation.sites := by decide +kernel
    have happlies : rule.Applies (Candidate.listed Statement.remoteSquare.equation [2])
        site.occurrence.term (.app 1 [.var 18446744073709551615])
        fun _ => .var 18446744073709551615 :=
      ⟨rfl, by decide, rfl⟩
    exact .intro hsite (.inl List.mem_cons_self) happlies

namespace Search

/-- The first move would be to open a cursor for the remote statement. -/
theorem not_moves_remoteSquare {plan : Plan} {root : ProofState} {cursor : Cursor} {y : Search}
    {events : List Counter} (begins : (Kernel.leftBlind {}).Begins .remoteSquare root)
    (opened : (Guidance.mk (.leftBlind {}) plan 3).Opened root cursor) :
    ¬Moves ⟨.leftBlind {}, plan, 3⟩ { root, limit := 2, stack := [⟨root, cursor⟩] } true events
      y := by
  obtain ⟨hctx, hfront, -, hdepth⟩ := begins.start
  have homed := (Kernel.built_leftBlind {}).homed
  have hover := opened.isOver homed hctx (.inl trivial)
  have hexpected : ∀ e, e ∈ (Kernel.leftBlind {}).expected root ↔
      e = Statement.remote.equation := by
    intro e
    show e ∈ (Kernel.leftBlind {}).expansions root.ctx root.forefront ↔ _
    rw [hctx, hfront]
    exact Kernel.mem_expansions_remoteSquare
  have hchild : ∀ {child y}, Takes ⟨.leftBlind {}, plan, 3⟩
      { root, limit := 2, stack := [⟨root, cursor⟩] } child y →
      root.IsParent child ∧ child.forefront = Statement.remote.equation := by
    rintro child y ⟨top, current, moved⟩
    cases top
    have hnext := Cursor.of_get_of_each current hover.1
    exact ⟨hnext.isParent, (hexpected _).1 (hnext.expected homed.bounded)⟩
  intro moves
  cases moves with
  | fail empty => cases empty
  | raise empty => cases empty
  | leave top ended =>
    cases top
    have hnone := Cursor.runs_of_ended ended hover.2
    have hmem := hnone.mem_iff.2 ((hexpected _).2 rfl)
    cases hmem
  | prove takes trivial => 
    rw [(hchild takes).2] at trivial
    cases trivial
  | @enter child y cursor takes notTrivial below opened =>
    obtain ⟨hparent, hremote⟩ := hchild takes
    obtain ⟨source, source', fixed, run⟩ := opened
    have hcursor : ((Kernel.leftBlind {}).cursor child).Lasts _ fun _ => False :=
      Kernel.lasts_cursor_remote (hparent.1.trans hctx) hremote
    have hnever := hcursor.bind fun c (h : False) =>
      show (plan.arrange c).Lasts _ fun _ => False from h.elim
    exact (hnever.of_runOn fixed run).2 cursor rfl
  | cut takes notTrivial beyond =>
    have hlevel : 2 ≤ _ := beyond
    rw [(hchild takes).1.depth, hdepth] at hlevel
    omega

/-- No search for a proof of the square makes a move. -/
theorem After.eq_zero_of_remoteSquare {plan : Plan} {n : Nat} {x : Search}
    (h : After ⟨.leftBlind {}, plan, 3⟩ 2 .remoteSquare n x) :
    n = 0 ∧ x.verdict = .unfinished := by
  have hstill := h.of_moves (Kernel.built_leftBlind {}).homed (by decide) (.inl trivial)
    (P := fun n x => n = 0 ∧ x.verdict = .unfinished ∧ ∃ root cursor,
      (Kernel.leftBlind {}).Begins .remoteSquare root ∧
      (Guidance.mk (.leftBlind {}) plan 3).Opened root cursor ∧
      x = { root, limit := 2, stack := [⟨root, cursor⟩] }) ?_ ?_ ?_ ?_
  · exact ⟨hstill.1, hstill.2.1⟩
  · intro root begins htrivial
    rw [begins.start.2.1] at htrivial
    cases htrivial
  · intro root cursor begins _ opened
    exact ⟨rfl, rfl, root, cursor, begins, opened, rfl⟩
  · rintro n x done ⟨-, going, -⟩
    rw [isDone_eq_false.2 going] at done
    cases done
  · rintro n x y events - - ⟨-, -, root, cursor, begins, opened, rfl⟩ moves
    exact absurd moves (not_moves_remoteSquare begins opened)

end Search

/-- The square of the last variable can be set as a target, but whatever is drawn, no step on it
succeeds: its search is never done. -/
theorem Solver.searches_end_not_remoteSquare :
    (Kernel.leftBlind {}).Built ∧ (∃ s, Advanced (.leftBlind {}) {} 3 2 [.remoteSquare] 0 s) ∧
    ∀ n s, Advanced (.leftBlind {}) {} 3 2 [.remoteSquare] n s →
      n = 0 ∧ ∀ x ∈ s.searches, x.verdict = .unfinished := by
  refine ⟨Kernel.built_leftBlind {}, ?_, fun n s advanced => ?_⟩
  · let new : Solver := { plan := {}, maxDepth := 3, startingDepth := 2 }
    have hok : (((setTargets (.leftBlind {}) [.remoteSquare]).runOn new).run
        (Kernel.leftBlind {}).source).1.1.isOk = true := by decide +kernel
    revert hok
    rcases hrun : ((setTargets (.leftBlind {}) [.remoteSquare]).runOn new).run
      (Kernel.leftBlind {}).source with ⟨⟨_ | _, s⟩, source⟩
    · exact fun hok => nomatch hok
    · exact fun _ => ⟨s, .set (show make {} 3 2 = .ok new from rfl) rfl hrun⟩
  · obtain ⟨x, _, hx, hnil, hsearches⟩ :=
      List.forall₂_cons_left_iff.1 (advanced.grants (Kernel.built_leftBlind {}).homed).searches
    rw [List.forall₂_nil_left_iff] at hnil
    obtain ⟨rfl, hverdict⟩ := hx.eq_zero_of_remoteSquare
    refine ⟨rfl, fun y hy => ?_⟩
    rw [hsearches, hnil, List.mem_singleton] at hy
    rw [hy, hverdict]

end Equational
