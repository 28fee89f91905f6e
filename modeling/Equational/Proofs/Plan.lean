import Equational.Plan
import Equational.Proofs.Ranking
import Equational.Proofs.Successor

/-!
# Plans keep the successors

Whatever the plan of a search is, the cursor that it opens over the successors of a state
gives successors only, and gives them all: ranking changes their order and nothing else.

A heuristic may fail, as one that plays back recorded values does if there are none, and a
strategy with parameters out of range cannot be made. The cursors of a plan in which this cannot
happen never fail, if there is room for the rewrites.
-/

namespace Equational

variable {rules : List Rule} {lenient : Prop}

/-- The heuristic always has a benefit to predict. -/
def Heuristic.IsTotal (h : Heuristic) : Prop :=
  ∀ s source, ∃ benefit, ((h.predict s).runOn source).1 = .ok benefit

theorem EditDistance.isTotal_heuristic (h : EditDistance) : h.heuristic.IsTotal :=
  fun _ _ => ⟨_, rfl⟩

theorem Heuristic.isTotal_rehearsed (tape : Nat) {values : Array Float32} (some : 0 < values.size) :
    (Heuristic.rehearsed tape values).IsTotal := by
  intro _ source
  have hplay : (Draws.play tape values).Meets source.rules False fun _ => True :=
    Draws.meets_play (.inr some)
  obtain ⟨benefit, source', hrun, -⟩ := hplay.exists_runOn rfl
  exact ⟨benefit, congrArg Prod.fst hrun⟩

/-- Where states are ranked, the heuristic never fails and a strategy can be made. -/
def Plan.IsTotal (p : Plan) : Prop :=
  ∀ h stopping, p.heuristic = some h → p.stopping = some stopping →
    h.IsTotal ∧ ∃ strategy, stopping.start = .ok strategy

theorem Heuristic.meets_predict {h : Heuristic} (total : lenient ∨ h.IsTotal) (s : ProofState) :
    (h.predict s).Meets rules lenient fun _ => True := by
  intro source hs
  have hfixed := h.fixed s source
  revert hfixed
  rcases hrun : (h.predict s).runOn source with ⟨cause | benefit, source'⟩
  · intro _
    refine total.elim id fun total => ?_
    obtain ⟨benefit, hbenefit⟩ := total s source
    rw [hrun] at hbenefit
    cases hbenefit
  · exact fun hfixed => ⟨hfixed.trans hs, trivial⟩

/-- A cursor that ranks what another one goes through, by benefits that are found in any way. -/
def Cursor.rankBy (predict : ProofState → Draws Float32) (strategy : Strategy) (c : Cursor) :
    Draws Cursor := do
  let supply ← Reply.toDraws (c.supply.rank predict { strategy })
  pure ⟨.ranking, supply⟩

theorem Cursor.rank_eq_rankBy (h : Heuristic) (strategy : Strategy) (c : Cursor) :
    c.rank h strategy = c.rankBy h.predict strategy := rfl

mutual
/-- If the cursor gives only states with the property, then each item has it. -/
theorem Supply.Runs.each {Q : ProofState → Prop} (kind : CursorKind) :
    {supply : Supply ProofState} → {post : List ProofState → Prop} →
    supply.Runs rules lenient post → (∀ s, (Cursor.mk kind supply).Gives rules s → Q s) →
    supply.Each rules Q
  | .done _, _, _, _ => by rw [Supply.Each]; trivial
  | .item value _ _, _, h, hQ => by
    rw [Supply.Each]
    refine ⟨hQ value (.now rfl), fun source hs => ?_⟩
    exact Reply.Runs.each kind (h source hs) fun s hs' => hQ s (Cursor.gives_next hs hs')
  | .stuck _ _, _, _, _ => by rw [Supply.Each]; trivial
theorem Reply.Runs.each {Q : ProofState → Prop} (kind : CursorKind) :
    {reply : Reply ProofState} → {post : List ProofState → Prop} →
    reply.Runs rules lenient post → (∀ s, (Cursor.mk kind reply.supply).Gives rules s → Q s) →
    reply.Each rules Q
  | .rest _ _, _, h, hQ => by
    rw [Reply.Each]
    exact ⟨h.1, Supply.Runs.each kind h.2 hQ⟩
  | .broken _ _ _, _, _, _ => by rw [Reply.Each]; trivial
end

/-- The cursor gives just the successors of the state, in some order. -/
def Cursor.IsOver (k : Kernel) (lenient : Prop) (s : ProofState) (c : Cursor) : Prop :=
  c.supply.Each k.rules (k.IsSuccessor s) ∧
    c.supply.Runs k.rules lenient fun items =>
      (items.map ProofState.forefront).Perm (k.expected s)

variable {k : Kernel} {s : ProofState}

theorem Kernel.meets_cursor_isOver (homed : k.IsHomed) (hctx : s.ctx = k.ctx)
    (room : lenient ∨ k.HasRoom s.forefront) :
    (k.cursor s).Meets k.rules lenient (Cursor.IsOver k lenient s) := by
  intro source hs
  have hmeets := Kernel.meets_cursor homed hctx room source hs
  revert hmeets
  rcases hrun : (k.cursor s).runOn source with ⟨cause | c, source'⟩
  · exact fun hlenient => hlenient
  · rintro ⟨hs', -, hruns⟩
    refine ⟨hs', hruns.each c.kind fun t ht => ?_, hruns.mono fun items hitems => hitems.1.perm⟩
    exact ⟨source, c, source', hs, hrun, ht⟩

/-- **Plans keep the successors.** The cursor that a plan opens is over the successors of the
state, and fails only if the plan is not total or there is no room. -/
theorem Plan.meets_successors {p : Plan} (safe : lenient ∨ p.IsTotal ∧ k.HasRoom s.forefront)
    (homed : k.IsHomed) (hctx : s.ctx = k.ctx) :
    (p.successors k s).Meets k.rules lenient (Cursor.IsOver k lenient s) := by
  refine (Kernel.meets_cursor_isOver homed hctx (safe.imp_right And.right)).bind ?_
  rintro c ⟨heach, hruns⟩
  rw [Plan.arrange]
  split
  next h stopping hheuristic hstopping =>
    have hranked := safe.imp_right fun safe => safe.1 h stopping hheuristic hstopping
    refine (Draws.meets_liftM (hranked.imp_right And.right)).bind fun strategy hstart => ?_
    have hpredict : ∀ t, (h.predict t).Meets k.rules lenient fun _ => True :=
      Heuristic.meets_predict (hranked.imp_right And.left)
    have hranked := Reply.meets_toDraws
      (Supply.runs_rank hpredict hruns (Stopping.keeps_start hstart))
    have hserved := Reply.meets_toDraws_each
      (Supply.each_rank hpredict heach { strategy } (by simp))
    refine (hranked.and hserved).bind fun supply ⟨hruns, heach⟩ => .pure ⟨heach, ?_⟩
    refine hruns.mono fun items hitems => ?_
    obtain ⟨rest, hrest, hperm⟩ := hitems.perm
    exact (hperm.map ProofState.forefront).trans hrest
  next => exact .pure ⟨heach, hruns⟩

end Equational
