import Equational.Proofs.Driving
import Equational.Proofs.Plan

/-!
# Ranked cursors serve everything, best first

A cursor that ranks the states of another one never fails and comes to its end just when all
of them were served. Of those taken in and not served yet, it serves the best one. If the
strategy keeps a fixed number of candidates then it is known how many were taken in at each
time: that number, and one more for each state that was served.

This holds for all benefits that a heuristic may predict, for all costs, and for every cursor
that can itself be driven to its end.
-/

namespace Equational

variable {rules : List Rule}

/-- The strategies that rankings start with: those that are made by choosing parameters in range,
and these with their costs told from a list of positive ones. -/
inductive Strategy.IsNew : Strategy → Prop
  | made {stopping : Stopping} {s : Strategy} (ok : stopping.start = .ok s) : IsNew s
  | told {costs : Array Float32} {told : Nat} {s : Strategy} (some : 0 < costs.size)
      (positive : ∀ cost ∈ costs, cost > 0) (new : IsNew s) : IsNew (.rehearsed costs told s)

theorem Strategy.IsNew.keeps {s : Strategy} (new : s.IsNew) : s.Keeps 0 := by
  induction new with
  | made ok => exact Stopping.keeps_start ok
  | told some positive _ ih => exact ⟨some, positive, ih⟩

namespace Cursor

variable {predict : ProofState → Draws Float32} {strategy : Strategy} {child : Cursor}
  {post : List ProofState → Prop} {source : Source}

/-- **Ranked cursors serve everything, best first.** Take a cursor that can be driven to its end, a
heuristic that always has a benefit to predict, and a new strategy. Then the ranked cursor can be
driven to its end. What it serves are the states of the first cursor, each of them once, with a
benefit that was predicted for it. If the strategy keeps `n` candidates, then a state that is served
after `k` others is the best of the first `n + k` states that are not among these `k`. -/
theorem rankBy_serves_best_first (finite : child.Exhausts rules post)
    (total : ∀ t, (predict t).Meets rules False fun _ => True) (new : strategy.IsNew)
    (fixed : source.rules = rules) :
    ∃ (c : Cursor) (source' : Source),
      (child.rankBy predict strategy).runOn source = (.ok c, source') ∧ source'.rules = rules ∧
      c.Exhausts rules fun served =>
        ∃ (xs : List (Float32 × ProofState)) (order : List ((Float32 × ProofState) × Nat)),
          post (xs.map Prod.snd) ∧
          (∀ entry ∈ xs, ∃ before after : Source, before.rules = rules ∧
            (predict entry.2).runOn before = (.ok entry.1, after)) ∧
          order.Perm xs.zipIdx ∧ served = order.map (fun e => e.1.2) ∧
          ∀ n, strategy.capacity = some n → ∀ earlier e later, order = earlier ++ e :: later →
            Ranking.IsBest (xs.zipIdx.take (n + earlier.length)) earlier e := by
  have hranked := Reply.meets_toDraws (Supply.runs_rank total finite.runs new.keeps)
  have hrank : (child.rankBy predict strategy).Meets rules False fun c =>
      c.supply.Runs rules False
        (Ranking.Serves strategy.capacity [] [] (Ranking.Foretold rules predict post)) :=
    hranked.bind fun _ h => .pure h
  obtain ⟨c, source', hrun, hs, hserves⟩ := hrank.exists_runOn fixed
  refine ⟨c, source', hrun, hs, ?_⟩
  apply Exhausts.mono (hserves.exhausts c.kind)
  rintro served ⟨xs, order, ⟨hpost, hforetold⟩, hserved, hperm, hbest⟩
  refine ⟨xs, order, hpost, hforetold, hperm, hserved, ?_⟩
  intro n hn earlier e later hsplit
  obtain ⟨seen, hseen, hbest⟩ := hbest earlier e later hsplit
  have hseen' : seen = n + earlier.length := by
    have := hseen n hn
    simpa using this
  rw [hseen'] at hbest
  exact hbest

/-- The successors of a fourfold involution, by benefits played from a tape with what is not a
number on it, two of them kept. -/
theorem rankBy_serves_best_first_involution :
    ∃ (root : ProofState) (child c : Cursor) (source source' : Source),
      (Kernel.involution {}).Begins .fourfold root ∧
      ((Kernel.involution {}).cursor root).runOn (Kernel.involution {}).source =
        (.ok child, source) ∧
      (child.rank (.rehearsed 0 #[1, 0 / 0, 2]) (.rehearsed #[3] 0 (.fixed ⟨2, 0⟩))).runOn source =
        (.ok c, source') ∧
      c.Exhausts [.ofStatement .involution] fun served =>
        ∃ (xs : List (Float32 × ProofState)) (order : List ((Float32 × ProofState) × Nat)),
          (xs.map Prod.snd).map ProofState.forefront = (Kernel.involution {}).expected root ∧
          order.Perm xs.zipIdx ∧ served = order.map (fun e => e.1.2) ∧
          ∀ earlier e later, order = earlier ++ e :: later →
            Ranking.IsBest (xs.zipIdx.take (2 + earlier.length)) earlier e := by
  have hbuilt := Kernel.built_involution {}
  obtain ⟨root, -, hbegins, -⟩ := Kernel.exists_chain_involution {}
  have hcursor : ((Kernel.involution {}).cursor root).Meets _ False _ :=
    Kernel.meets_cursor hbuilt.homed hbegins.start.1
      (.inr (hbegins.start.2.1.symm ▸ Kernel.hasRoom_fourfold {}))
  obtain ⟨child, source, hrun, hs, -, hruns⟩ :=
    hcursor.exists_runOn (show (Kernel.involution {}).source.rules = _ from rfl)
  have hfinite := (hruns.mono fun _ hitems => hitems.1.eq).exhausts child.kind
  have hpositive : ∀ cost ∈ #[(3 : Float32)], cost > 0 := by
    intro cost hcost
    rw [List.mem_toArray, List.mem_singleton] at hcost
    have hthree : decide ((3 : Float32) > 0) = true := by decide
    rw [hcost]
    exact of_decide_eq_true hthree
  have htotal : (Heuristic.rehearsed 0 #[1, 0 / 0, 2]).IsTotal :=
    Heuristic.isTotal_rehearsed 0 (Nat.zero_lt_succ 2)
  have hnew : (Strategy.rehearsed #[3] 0 (.fixed ⟨2, 0⟩)).IsNew :=
    .told (Nat.zero_lt_succ 0) hpositive (@Strategy.IsNew.made (.fixed 2) _ rfl)
  obtain ⟨c, source', hrank, -, hserves⟩ :=
    rankBy_serves_best_first hfinite (Heuristic.meets_predict (.inr htotal)) hnew hs
  refine ⟨root, child, c, source, source', hbegins, hrun, ?_, ?_⟩
  · rw [rank_eq_rankBy]
    exact hrank
  · apply hserves.mono
    rintro served ⟨xs, order, hpost, -, hperm, hserved, hbest⟩
    exact ⟨xs, order, hpost, hperm, hserved, hbest 2 rfl⟩

end Cursor

end Equational
