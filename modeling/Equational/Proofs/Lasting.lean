import Equational.Proofs.Plan

/-!
# What outlasts a violation

A violation ends the call in which it is met, but not the search: what was changed stays changed,
and the next call goes on with the cursors as they were left. A cursor over rewrites is stuck then
(`Supply.Yields`), but a ranked one still serves what it has at hand. `Supply.Lasts` is about both:
every item has the property, however often the supply broke before it was given.

This holds in every kernel and for every plan, whether or not all rewrites can be made: what a
cursor stands on is a successor of the state that it was opened for (`Plan.lasts_successors`).
-/

namespace Equational

variable {α : Type} {rules : List Rule} {Q : α → Prop}

theorem Heuristic.lasts_predict (h : Heuristic) (s : ProofState) :
    (h.predict s).Lasts rules fun _ => True :=
  fun source fixed => ⟨(h.fixed s source).trans fixed, fun _ _ => trivial⟩

/-! ### Supplies -/

mutual
/-- Every item that the supply gives has the property, before a violation or after it. -/
def Supply.Lasts (rules : List Rule) (Q : α → Prop) : Supply α → Prop
  | .done _ => True
  | .item value _ next =>
    Q value ∧ ∀ source : Source, source.rules = rules → (next source).Lasts rules Q
  | .stuck _ _ => True
/-- The same for what comes after an item. -/
def Reply.Lasts (rules : List Rule) (Q : α → Prop) : Reply α → Prop
  | .rest supply source => source.rules = rules ∧ supply.Lasts rules Q
  | .broken _ left source => source.rules = rules ∧ left.Lasts rules Q
end

mutual
theorem Supply.Lasts.each : {supply : Supply α} → supply.Lasts rules Q → supply.Each rules Q
  | .done _, _ => trivial
  | .item _ _ _, h => ⟨h.1, fun source fixed => Reply.Lasts.each (h.2 source fixed)⟩
  | .stuck _ _, _ => trivial
theorem Reply.Lasts.each : {reply : Reply α} → reply.Lasts rules Q → reply.Each rules Q
  | .rest _ _, h => ⟨h.1, Supply.Lasts.each h.2⟩
  | .broken _ _ _, _ => trivial
end

mutual
theorem Supply.Yields.lasts {ends : Prop} :
    {supply : Supply α} → supply.Yields rules ends Q → supply.Lasts rules Q
  | .done _, _ => trivial
  | .item _ _ _, h => ⟨h.1, fun source fixed => Reply.Yields.lasts (h.2 source fixed)⟩
  | .stuck _ _, _ => trivial
theorem Reply.Yields.lasts {ends : Prop} :
    {reply : Reply α} → reply.Yields rules ends Q → reply.Lasts rules Q
  | .rest _ _, h => ⟨h.1, Supply.Yields.lasts h.2⟩
  | .broken _ _ _, h => by
    obtain ⟨fixed, level, gauge, rfl⟩ := h
    exact ⟨fixed, trivial⟩
end

/-! ### Ranked supplies -/

variable {predict : α → Draws Float32}

theorem Ranking.lasts_serveAll (taken : Nat) {buffer : List (Float32 × α)}
    (h : ∀ entry ∈ buffer, Q entry.2) : (serveAll taken buffer).Lasts rules Q := by
  induction buffer with
  | nil => trivial
  | cons entry buffer ih =>
    rw [serveAll]
    rw [List.forall_mem_cons] at h
    exact ⟨h.1, fun source fixed => ⟨fixed, ih h.2⟩⟩

theorem Ranking.lasts_serve {size taken : Nat} {takeMore : Ranking α → Supply α → Source → Reply α}
    (more : ∀ (r : Ranking α) (left : Supply α) (source : Source), (∀ entry ∈ r.buffer, Q entry.2) →
      left.Lasts rules Q → source.rules = rules → (takeMore r left source).Lasts rules Q)
    {buffer : List (Float32 × α)} (h : ∀ entry ∈ buffer, Q entry.2) (strategy : Strategy) :
    (serve size taken takeMore buffer strategy).Lasts rules Q := by
  induction buffer generalizing strategy with
  | nil => trivial
  | cons entry buffer ih =>
    rw [serve]
    rw [List.forall_mem_cons] at h
    refine ⟨h.1, fun source fixed => ?_⟩
    cases strategy.removeBest with
    | error cause => exact ⟨fixed, ih h.2 strategy⟩
    | ok strategy' =>
      dsimp only
      split
      next => exact ⟨fixed, ih h.2 strategy'⟩
      next => exact more _ _ source h.2 (ih h.2 strategy') fixed

/-- What was taken in stays at hand when no more can be taken in. -/
theorem Ranking.lasts_serve_stuck {size taken : Nat} (cause : Violation)
    {buffer : List (Float32 × α)} (h : ∀ entry ∈ buffer, Q entry.2) (strategy : Strategy) :
    (serve size taken (fun _ left source => .broken cause left source) buffer strategy).Lasts
      rules Q := by
  apply lasts_serve
  · intro r left source _ hleft fixed
    exact ⟨fixed, hleft⟩
  · exact h

/-- Taking in an item adds nothing else to what is at hand, and nothing at all if it fails. -/
theorem Ranking.of_mem_take {r r' : Ranking α} {benefit cost : Float32} {item : α}
    {outcome : Checked Unit} (htake : r.take benefit cost item = (outcome, r')) (hitem : Q item)
    (h : ∀ entry ∈ r.buffer, Q entry.2) : ∀ entry ∈ r'.buffer, Q entry.2 := by
  cases outcome with
  | error cause =>
    rw [take] at htake
    split at htake
    next => cases htake
    next => cases htake; exact h
  | ok u =>
    intro entry hentry
    have hbuffered := (buffer_perm_of_take htake).mem_iff.1 hentry
    rcases List.mem_cons.1 hbuffered with rfl | hmem
    · exact hitem
    · exact h entry hmem

mutual
theorem Supply.Lasts.rank (hpredict : ∀ a, (predict a).Lasts rules fun _ => True) :
    {supply : Supply α} → supply.Lasts rules Q → (r : Ranking α) →
    (∀ entry ∈ r.buffer, Q entry.2) → (source : Source) → source.rules = rules →
    (supply.rank predict r source).Lasts rules Q
  | .done _, _, r, hr, _, fixed => by
    rw [Supply.rank]
    exact ⟨fixed, Ranking.lasts_serveAll r.taken hr⟩
  | .item _ _ _, h, r, hr, source, fixed => by
    rw [Supply.rank]
    split
    next =>
      exact ⟨fixed, Ranking.lasts_serve (fun r _ source hr _ fixed =>
        Reply.Lasts.rank hpredict (h.2 source fixed) h.1 r hr) hr _⟩
    next => exact Reply.Lasts.rank hpredict (h.2 source fixed) h.1 r hr
  | .stuck _ _, _, r, hr, source, fixed => by
    rw [Supply.rank]
    dsimp only
    split
    next => exact ⟨fixed, Ranking.lasts_serve_stuck _ hr _⟩
    next => exact ⟨fixed, Ranking.lasts_serve_stuck _ hr _⟩
theorem Supply.Lasts.ranked (hpredict : ∀ a, (predict a).Lasts rules fun _ => True) :
    {supply : Supply α} → supply.Lasts rules Q → (r : Ranking α) →
    (∀ entry ∈ r.buffer, Q entry.2) → (supply.ranked predict r).Lasts rules Q
  | .done _, _, r, hr => by
    rw [Supply.ranked]
    exact Ranking.lasts_serveAll r.taken hr
  | .item _ _ _, h, _, hr => by
    rw [Supply.ranked]
    exact Ranking.lasts_serve (fun r _ source hr _ fixed =>
      Reply.Lasts.rank hpredict (h.2 source fixed) h.1 r hr) hr _
  | .stuck _ _, _, _, hr => by
    rw [Supply.ranked]
    exact Ranking.lasts_serve_stuck _ hr _
theorem Reply.Lasts.rank (hpredict : ∀ a, (predict a).Lasts rules fun _ => True) :
    {reply : Reply α} → reply.Lasts rules Q → {value : α} → Q value → (r : Ranking α) →
    (∀ entry ∈ r.buffer, Q entry.2) → (reply.rank predict value r).Lasts rules Q
  | .rest supply source, h, value, hvalue, r, hr => by
    rw [Reply.rank]
    rcases hrun : (predict value).runOn source with ⟨cause | benefit, source'⟩
    · exact ⟨((hpredict value).of_runOn h.1 hrun).1, Supply.Lasts.ranked hpredict h.2 r hr⟩
    · have hfixed : source'.takeTime.2.rules = rules :=
        source'.rules_takeTime.trans ((hpredict value).of_runOn h.1 hrun).1
      dsimp only
      rcases htake : r.take benefit (Ranking.costOf source'.takeTime.1) value with ⟨cause | ⟨⟩, r'⟩
      · exact ⟨hfixed, Supply.Lasts.ranked hpredict h.2 r' (Ranking.of_mem_take htake hvalue hr)⟩
      · exact Supply.Lasts.rank hpredict h.2 r' (Ranking.of_mem_take htake hvalue hr) _ hfixed
  | .broken _ _ _, h, _, _, r, hr => by
    rw [Reply.rank]
    exact ⟨h.1, Supply.Lasts.ranked hpredict h.2 r hr⟩
end

/-! ### Successors -/

namespace Cursor

variable {c c' : Cursor} {t : ProofState} {outcome : Checked Unit} {source source' : Source}
  {P : ProofState → Prop}

/-- Moving a cursor on, with success or not, leads to nothing that was not to come. -/
theorem lasts_of_advance (fixed : source.rules = rules)
    (run : (advance.runOn c).run source = ((outcome, c'), source'))
    (lasts : c.supply.Lasts rules P) : c'.supply.Lasts rules P := by
  obtain ⟨kind, supply⟩ := c
  cases supply with
  | done gauge =>
    obtain rfl : Cursor.mk kind (.done gauge) = c' := congrArg (fun r => r.1.2) run
    exact lasts
  | stuck level gauge =>
    obtain rfl : Cursor.mk kind (.stuck level gauge) = c' := congrArg (fun r => r.1.2) run
    exact lasts
  | item value gauge next =>
    have hnext := lasts.2 source fixed
    rw [run_advance_item] at run
    revert run hnext
    cases next source with
    | rest supply source₁ =>
      intro run hnext
      obtain rfl : Cursor.mk kind supply = c' := congrArg (fun r => r.1.2) run
      exact hnext.2
    | broken cause left source₁ =>
      intro run hnext
      obtain rfl : Cursor.mk kind left = c' := congrArg (fun r => r.1.2) run
      exact hnext.2

theorem of_get_of_each (current : c.get = .ok t) (each : c.supply.Each rules P) : P t := by
  obtain ⟨kind, supply⟩ := c
  cases supply with
  | done gauge => cases current
  | stuck level gauge => cases current
  | item value gauge next =>
    obtain rfl : value = t := Except.ok.inj current
    exact each.1

end Cursor

/-- **What cursors stand on.** Every cursor that a plan opens stands on successors of the state, now
and after it was moved on, whatever violations were met meanwhile. -/
theorem Plan.lasts_successors (p : Plan) (k : Kernel) (s : ProofState) :
    (p.successors k s).Lasts k.rules fun c => c.supply.Lasts k.rules (k.IsSuccessor s) := by
  have hcursor : (k.cursor s).Lasts k.rules fun c => c.supply.Lasts k.rules (k.IsSuccessor s) := by
    intro source fixed
    rcases hrun : (k.cursor s).runOn source with ⟨answer, source'⟩
    obtain ⟨hfixed, hyields⟩ :=
      (Kernel.lasts_cursor_of (k.lasts_successors_isParent s)).of_runOn fixed hrun
    refine ⟨hfixed, ?_⟩
    rintro c rfl
    have hsuccessor : ∀ t, c.Gives k.rules t → k.IsSuccessor s t :=
      fun t ht => ⟨source, c, source', fixed, hrun, ht⟩
    exact ((hyields c rfl).2.gives c.kind hsuccessor).lasts
  refine hcursor.bind fun c hc => ?_
  rw [arrange]
  split
  next h stopping _ _ =>
    refine (Draws.lasts_liftM stopping.start).bind fun strategy _ => ?_
    have hrank := hc.rank h.lasts_predict { strategy } (by simp)
    have hranked :
        (Reply.toDraws (c.supply.rank h.predict { strategy })).Lasts k.rules fun supply =>
        supply.Lasts k.rules (k.IsSuccessor s) := by
      apply Reply.lasts_toDraws_of
      · intro source fixed supply source' hnext
        have hlasts := hrank source fixed
        rwa [hnext] at hlasts
      · intro source fixed cause left source' hnext
        have hlasts := hrank source fixed
        rw [hnext] at hlasts
        exact hlasts.1
    exact hranked.bind fun supply hsupply => .pure hsupply
  next => exact .pure hc

end Equational
