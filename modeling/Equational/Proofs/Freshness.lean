import Equational.Proofs.Driving
import Equational.Proofs.Enumeration
import Equational.Proofs.Plan
import Equational.Proofs.Renaming

/-!
# Nothing comes up again

In a kernel that leaves out repetitions, no two equations on the way to a state are
equivalent. This holds of every state that is found by opening cursors over successors,
ranked or not, moving them on and taking what they stand on.

No more is left out than that. Next to the cursor over the successors of a state stands the
one that the same kernel would open if it kept repetitions. Driven side by side, the first
one gives what the second one gives, in the same order, except for the states whose
forefront repeats an equation on the way. Both come to their ends, or both meet a violation;
the latter only if there is no room for the target.
-/

namespace Equational

variable {rules : List Rule}

/-! ### Driving a cursor that leaves out states -/

section Reject

variable (p : ProofState → Bool) (between : ProofState → Source → Source)

mutual
/-- Leaving out items while they are read leaves them out of what is read. On an item that is left
out a reader never stands, so nothing else happens to the source meanwhile. -/
theorem Supply.reads_reject (kind : CursorKind) :
    (supply : Supply ProofState) → (source : Source) →
    ∃ all ended,
      (Cursor.mk kind supply).Reads (fun t σ => if p t then σ else between t σ) source all ended ∧
        (supply.reject p source).Reads kind between (all.filter fun t => !p t) ended
  | .done gauge, source => by
    refine ⟨[], true, .ended rfl, ?_⟩
    rw [Supply.reject]
    exact .ended rfl
  | .item value gauge next, source => by
    rw [Supply.reject]
    by_cases hp : p value = true
    · -- both go on to the next item from the same source
      obtain ⟨all, ended, hall, hkept⟩ := Reply.reads_reject kind (next source)
      refine ⟨value :: all, ended, Cursor.reads_item ?_, ?_⟩
      · rw [if_pos hp]
        exact hall
      · rw [if_pos hp, List.filter_cons_of_neg (by simp [hp])]
        exact hkept
    · obtain ⟨all, ended, hall, hkept⟩ := Reply.reads_reject kind (next (between value source))
      refine ⟨value :: all, ended, Cursor.reads_item ?_, ?_⟩
      · rw [if_neg hp]
        exact hall
      · rw [if_neg hp, List.filter_cons_of_pos (by simp [hp])]
        exact Cursor.reads_item hkept
  | .stuck level gauge, source => by
    refine ⟨[], false, .refused rfl rfl, ?_⟩
    rw [Supply.reject]
    exact ⟨rfl, rfl⟩
theorem Reply.reads_reject (kind : CursorKind) :
    (reply : Reply ProofState) →
    ∃ all ended, reply.Reads kind (fun t σ => if p t then σ else between t σ) all ended ∧
      (reply.reject p).Reads kind between (all.filter fun t => !p t) ended
  | .rest supply source => by
    rw [Reply.reject]
    exact Supply.reads_reject kind supply source
  | .broken cause left source => by
    rw [Reply.reject]
    exact ⟨[], false, ⟨rfl, rfl⟩, rfl, rfl⟩
end

end Reject

/-- Driven side by side, the second cursor gives the states of the first one whose forefront
repeats nothing on the path, in the same order. Whatever happens to the source while the second
cursor stands on a state also happens while the first one does. Both come to their ends, for sure if
`safe` holds, or both meet a violation. -/
def Cursor.Omits (rules : List Rule) (path : List Equation) (safe : Prop) (full : Cursor)
    (source : Source) (part : Cursor) (source' : Source) : Prop :=
  ∀ between : ProofState → Source → Source,
    (∀ t σ, σ.rules = rules → (between t σ).rules = rules) →
    ∃ all ended,
      full.Reads (fun t σ => if t.forefront.repeats path then σ else between t σ) source all ended ∧
      part.Reads between source' (all.filter fun t => !t.forefront.repeats path) ended ∧
      (safe → ended = true)

namespace Kernel

/-- The kernel that keeps repetitions and is otherwise the same. -/
def repeating (k : Kernel) : Kernel := { k with options := { k.options with noRepeats := false } }

variable {k : Kernel} {s t root : ProofState} {c : Cursor}

theorem cursor_eq_withoutRepeats (strict : k.options.noRepeats = true) (s : ProofState) :
    k.cursor s = (do (← k.repeating.cursor s).withoutRepeats s.path) := by
  simp only [cursor, successors, strict, repeating, Cursor.withoutRepeats, bind_assoc, pure_bind]
  rfl

/-- What comes of opening a cursor where repetitions are left out: the violation that is met if they
are kept, or what is left of the cursor that is opened then. -/
theorem runOn_cursor_of_strict (strict : k.options.noRepeats = true) (s : ProofState)
    (source : Source) :
    (∃ cause source₁, (k.repeating.cursor s).runOn source = (.error cause, source₁) ∧
      (k.cursor s).runOn source = (.error cause, source₁)) ∨
    ∃ full source₁, (k.repeating.cursor s).runOn source = (.ok full, source₁) ∧
      ((∃ supply source₂,
          full.supply.reject (fun t => t.forefront.repeats s.path) source₁ = .rest supply source₂ ∧
          (k.cursor s).runOn source = (.ok ⟨full.kind, supply⟩, source₂)) ∨
        ∃ cause left source₂,
          full.supply.reject (fun t => t.forefront.repeats s.path) source₁ =
            .broken cause left source₂ ∧
          (k.cursor s).runOn source = (.error cause, source₂)) := by
  rw [cursor_eq_withoutRepeats strict, Draws.runOn_bind]
  rcases hfull : (k.repeating.cursor s).runOn source with ⟨cause | full, source₁⟩
  · exact .inl ⟨cause, source₁, rfl, rfl⟩
  · refine .inr ⟨full, source₁, rfl, ?_⟩
    dsimp only
    rw [Cursor.withoutRepeats, Draws.runOn_bind]
    cases hreply : full.supply.reject (fun t => t.forefront.repeats s.path) source₁ with
    | rest supply source₂ =>
      refine .inl ⟨supply, source₂, rfl, ?_⟩
      simp only [Reply.toDraws, Draws.runOn, ExceptT.run, StateT.run, hreply]
      rfl
    | broken cause left source₂ =>
      refine .inr ⟨cause, left, source₂, rfl, ?_⟩
      simp only [Reply.toDraws, Draws.runOn, ExceptT.run, StateT.run, hreply]

/-- The cursor that a kernel without repetitions opens, next to the one with them. -/
theorem cursor_omits (homed : k.IsHomed) (hctx : s.ctx = k.ctx)
    (strict : k.options.noRepeats = true) {source source₂ : Source} (fixed : source.rules = k.rules)
    {part : Cursor} (run : (k.cursor s).runOn source = (.ok part, source₂)) :
    ∃ full source₁, (k.repeating.cursor s).runOn source = (.ok full, source₁) ∧
      Cursor.Omits k.rules s.path (k.HasRoom s.forefront) full source₁ part source₂ := by
  rcases runOn_cursor_of_strict strict s source with ⟨_, _, -, hrun⟩ | ⟨full, source₁, hfull, hpart⟩
  · cases run.symm.trans hrun
  rcases hpart with ⟨supply, source₂', hreply, hrun⟩ | ⟨_, _, _, -, hrun⟩
  · cases run.symm.trans hrun
    refine ⟨full, source₁, hfull, fun between keeps => ?_⟩
    obtain ⟨all, ended, hall, hkept⟩ := Supply.reads_reject _ between full.kind full.supply source₁
    rw [hreply] at hkept
    refine ⟨all, ended, hall, hkept, fun room => ?_⟩
    have hmeets : (k.cursor s).Meets k.rules False _ := meets_cursor homed hctx (.inr room)
    obtain ⟨hs, -, hruns⟩ := hmeets.of_runOn fixed run
    exact ((hruns.exhausts full.kind).of_reads keeps hs hkept).1
  · cases run.symm.trans hrun

/-- If no cursor is opened, then none is opened either if repetitions are kept, or there is nothing
but repetitions before a violation. -/
theorem cursor_refused (strict : k.options.noRepeats = true) {source source' : Source}
    {cause : Violation} (run : (k.cursor s).runOn source = (.error cause, source')) :
    (∃ cause, ((k.repeating.cursor s).runOn source).1 = .error cause) ∨
      ∃ full source₁ all, (k.repeating.cursor s).runOn source = (.ok full, source₁) ∧
        full.Reads (fun _ σ => σ) source₁ all false ∧
        ∀ t ∈ all, t.forefront.repeats s.path = true := by
  rcases runOn_cursor_of_strict strict s source with
    ⟨_, _, hfull, -⟩ | ⟨full, source₁, hfull, hpart⟩
  · exact .inl ⟨_, congrArg Prod.fst hfull⟩
  rcases hpart with ⟨_, _, -, hrun⟩ | ⟨cause, left, source₂, hreply, hrun⟩
  · cases run.symm.trans hrun
  · obtain ⟨all, ended, hall, hkept⟩ := Supply.reads_reject (fun t => t.forefront.repeats s.path)
      (fun _ σ => σ) full.kind full.supply source₁
    rw [hreply] at hkept
    obtain ⟨hnone, rfl⟩ := hkept
    simp only [ite_self] at hall
    refine .inr ⟨full, source₁, all, hfull, hall, fun t ht => ?_⟩
    simpa using List.filter_eq_nil_iff.1 hnone t ht

/-! ### The ways to come by a cursor -/

/-- The cursors over the successors of a state, however they were come by: handed out by the state,
whatever was asked of it before, ranked, or moved on. The rules stay the same. -/
inductive Opens (k : Kernel) (s : ProofState) : Cursor → Prop
  | plain {n n' : ProofNode} {c : Cursor} {source source' : Source} (history : n.History k s)
      (fixed : source.rules = k.rules)
      (run : (n.successors k).runOn source = (.ok (c, n'), source')) : Opens k s c
  | ranked {c c' : Cursor} {predict : ProofState → Draws Float32} {strategy : Strategy}
      {source source' : Source} (child : Opens k s c)
      (keeps : ∀ t, (predict t).Meets k.rules True fun _ => True) (fixed : source.rules = k.rules)
      (run : (c.rankBy predict strategy).runOn source = (.ok c', source')) : Opens k s c'
  | moved {c c' : Cursor} {source source' : Source} (earlier : Opens k s c)
      (fixed : source.rules = k.rules)
      (run : (Cursor.advance.runOn c).run source = ((.ok (), c'), source')) : Opens k s c'

/-- The states that are found from the first one by opening cursors and taking what they stand
on. -/
inductive Follows (k : Kernel) (root : ProofState) : ProofState → Prop
  | start : Follows k root root
  | step {s t : ProofState} {c : Cursor} (earlier : Follows k root s) (opens : k.Opens s c)
      (current : c.get = .ok t) : Follows k root t

/-- If nothing comes after a violation, then whatever a cursor gives is found by moving it on. -/
theorem Opens.exists_get {ends : Prop} {Q : ProofState → Prop} (opens : k.Opens s c)
    (yields : c.supply.Yields k.rules ends Q) (gives : c.Gives k.rules t) :
    ∃ c', k.Opens s c' ∧ c'.get = .ok t := by
  induction gives with
  | @now c t current => exact ⟨c, opens, current⟩
  | @later c c' t source source' outcome fixed moved gives ih =>
    obtain ⟨kind, supply⟩ := c
    cases supply with
    | stuck level gauge =>
      obtain rfl : Cursor.mk kind (.stuck level gauge) = c' := congrArg (fun r => r.1.2) moved
      exact ih opens yields
    | done gauge =>
      obtain rfl : Cursor.mk kind (.done gauge) = c' := congrArg (fun r => r.1.2) moved
      exact ih opens yields
    | item value gauge next =>
      have hnext := yields.2 source fixed
      rw [Cursor.run_advance_item] at moved
      cases hreply : next source with
      | broken cause left source'' =>
        rw [hreply] at hnext moved
        obtain ⟨-, level, gauge, rfl⟩ := hnext
        cases moved
        have hnothing :
            (Supply.stuck level gauge).Yields k.rules ends fun _ : ProofState => False :=
          trivial
        exact (gives.of_yields hnothing).elim
      | rest supply source'' =>
        rw [hreply] at hnext moved
        cases moved
        exact ih (.moved opens fixed (Cursor.run_advance_rest hreply)) hnext.2

theorem IsSuccessor.exists_opens (h : k.IsSuccessor s t) : ∃ c, k.Opens s c ∧ c.get = .ok t := by
  obtain ⟨source, c, source', fixed, hrun, gives⟩ := h
  obtain ⟨-, hyields⟩ := (lasts_cursor_of (k.lasts_successors_isParent s)).of_runOn fixed hrun
  have hplain : ((ProofNode.ofState s).successors k).runOn source =
      (.ok (c, .ofState s), source') := by
    show (do pure (← k.cursor s, ProofNode.ofState s) : Draws _).runOn source = _
    rw [Draws.runOn_bind, hrun]
    rfl
  exact (Opens.plain .new fixed hplain).exists_get (hyields c rfl).2 gives

/-- The cursor is one that the kernel opens over the successors of the state. -/
def IsOpened (k : Kernel) (s : ProofState) (c : Cursor) : Prop :=
  ∃ source source' : Source, source.rules = k.rules ∧
    (k.cursor s).runOn source = (.ok c, source')

theorem meets_cursor_isOpened (k : Kernel) (s : ProofState) :
    (k.cursor s).Meets k.rules True (k.IsOpened s) := by
  intro source hs
  have hlasts := (lasts_cursor_of (k.lasts_successors_isParent s)) source hs
  rcases hrun : (k.cursor s).runOn source with ⟨cause | c, source'⟩
  · trivial
  · rw [hrun] at hlasts
    exact ⟨hlasts.1, source, source', hs, hrun⟩

/-- The cursor that a state hands out was opened, whatever was asked of the state before. -/
theorem isOpened_of_history {n n' : ProofNode} (history : n.History k s) {source source' : Source}
    (fixed : source.rules = k.rules)
    (run : (n.successors k).runOn source = (.ok (c, n'), source')) : k.IsOpened s c := by
  have hopens := k.meets_cursor_isOpened s
  exact ((ProofNode.meets_successors_of hopens (history.holds hopens)).of_runOn fixed run).2.1

/-- Where a state hands out no cursor, none could be opened. -/
theorem runOn_cursor_of_error {n : ProofNode} {source source' : Source} {cause : Violation}
    (run : (n.successors k).runOn source = (.error cause, source')) :
    (k.cursor n.state).runOn source = (.error cause, source') := by
  rw [ProofNode.successors] at run
  split at run
  next => cases run
  next =>
    rw [Draws.runOn_bind] at run
    rcases hrun : (k.cursor n.state).runOn source with ⟨cause' | cursor, source''⟩
    · rw [hrun] at run
      cases run
      rfl
    · rw [hrun] at run
      cases run

/-- However a cursor was come by, it stands on successors only, now and later. -/
theorem Opens.each (homed : k.IsHomed) (hctx : s.ctx = k.ctx) (opens : k.Opens s c) :
    c.supply.Each k.rules (k.IsSuccessor s) := by
  induction opens with
  | @plain n n' c source source' history fixed run =>
    obtain ⟨opened, opened', hopened, hrun⟩ := isOpened_of_history history fixed run
    have hcursor : (k.cursor s).Meets k.rules True _ := meets_cursor homed hctx (.inl trivial)
    obtain ⟨-, -, hruns⟩ := hcursor.of_runOn hopened hrun
    apply hruns.each c.kind
    intro t gives
    exact ⟨opened, c, opened', hopened, hrun, gives⟩
  | @ranked c c' predict strategy source source' _ keeps fixed run ih =>
    have hserved := Reply.meets_toDraws_each (Supply.each_rank keeps ih { strategy } (by simp))
    have hrank : (c.rankBy predict strategy).Meets k.rules True fun c =>
        c.supply.Each k.rules (k.IsSuccessor s) := hserved.bind fun _ heach => .pure heach
    exact (hrank.of_runOn fixed run).2
  | @moved c c' source source' _ fixed run ih =>
    obtain ⟨value, gauge, next, hitem, hrest⟩ := Cursor.exists_rest_of_advance run
    rw [hitem] at ih
    have hlater := ih.2 source fixed
    rw [hrest] at hlater
    exact hlater.2

theorem Opens.isSuccessor (homed : k.IsHomed) (hctx : s.ctx = k.ctx) (opens : k.Opens s c)
    (current : c.get = .ok t) : k.IsSuccessor s t := by
  obtain ⟨gauge, next, hitem⟩ := Cursor.exists_item current
  have heach := opens.each homed hctx
  rw [hitem] at heach
  exact heach.1

theorem Follows.exists_chain (homed : k.IsHomed) (hctx : root.ctx = k.ctx)
    (follows : k.Follows root s) : ∃ steps, k.Chain root steps s := by
  induction follows with
  | start => exact ⟨0, .refl⟩
  | step _ opens current ih =>
    obtain ⟨steps, chain⟩ := ih
    exact ⟨steps + 1, chain.step (opens.isSuccessor homed (chain.ctx hctx) current)⟩

theorem Chain.follows {steps : Nat} (chain : k.Chain root steps s) : k.Follows root s := by
  induction chain with
  | refl => exact .start
  | step chain next ih =>
    obtain ⟨c, hopens, hcurrent⟩ := next.exists_opens
    exact .step ih hopens hcurrent

/-! ### Paths without repetitions -/

theorem IsSuccessor.not_repeats (bounded : k.IsBounded) (strict : k.options.noRepeats = true)
    (next : k.IsSuccessor s t) : ∀ e ∈ s.path, e.equivalent t.forefront = false := by
  intro e he
  have hnew := (mem_expected.1 (next.expected bounded)).2 strict
  rw [← Bool.not_eq_true]
  intro hequivalent
  have hrepeats : t.forefront.repeats s.path = true := List.any_eq_true.2 ⟨e, he, hequivalent⟩
  rw [hrepeats] at hnew
  cases hnew

theorem Chain.pairwise_path (bounded : k.IsBounded) (hroot : root.path = [root.forefront])
    (strict : k.options.noRepeats = true) {steps : Nat} (chain : k.Chain root steps s) :
    s.path.Pairwise fun e f => e.equivalent f = false ∧ f.equivalent e = false := by
  induction chain with
  | refl =>
    rw [hroot]
    exact List.pairwise_singleton _ _
  | @step steps t u chain next ih =>
    rw [next.isParent.path, List.pairwise_append]
    refine ⟨ih, List.pairwise_singleton _ _, ?_⟩
    intro e he f hf
    obtain rfl := List.mem_singleton.1 hf
    have hnew := next.not_repeats bounded strict e he
    exact ⟨hnew, by rw [Equation.equivalent_comm, hnew]⟩

/-- **Nothing comes up again, and nothing else is left out.** In a kernel that leaves out
repetitions, no two equations on the path of a state that is found from a target are equivalent. If
there is room for the target then the state hands out a cursor over its successors, whatever was
asked of it before. Every cursor that it hands out gives what the kernel would give if it kept
repetitions, in the same order, without the states whose forefront is equivalent to an equation on
the path. And where a violation is met instead, nothing but such states would have been given before
it. -/
theorem path_repeats_nothing {target : Statement} (built : k.Built)
    (strict : k.options.noRepeats = true) (begins : k.Begins target root)
    (follows : k.Follows root s) :
    (s.path.Pairwise fun e f => e.equivalent f = false ∧ f.equivalent e = false) ∧
      ∀ n : ProofNode, n.History k s → ∀ source : Source, source.rules = k.rules →
        (k.HasRoom target.equation → ∃ part n' source',
          (n.successors k).runOn source = (.ok (part, n'), source')) ∧
        (∀ part n' source', (n.successors k).runOn source = (.ok (part, n'), source') →
          ∃ opened full source₁ source₂, opened.rules = k.rules ∧
            (k.repeating.cursor s).runOn opened = (.ok full, source₁) ∧
            (k.cursor s).runOn opened = (.ok part, source₂) ∧
            Cursor.Omits k.rules s.path (k.HasRoom target.equation) full source₁ part source₂) ∧
        ∀ cause source', (n.successors k).runOn source = (.error cause, source') →
          (∃ cause, ((k.repeating.cursor s).runOn source).1 = .error cause) ∨
            ∃ full source₁ all, (k.repeating.cursor s).runOn source = (.ok full, source₁) ∧
              full.Reads (fun _ σ => σ) source₁ all false ∧
              ∀ t ∈ all, t.forefront.repeats s.path = true := by
  obtain ⟨hctx, hfront, hroot, -⟩ := begins.start
  obtain ⟨steps, chain⟩ := follows.exists_chain built.homed hctx
  have hsctx := chain.ctx hctx
  have hroom : k.HasRoom target.equation → k.HasRoom s.forefront := fun room =>
    HasRoom.chain built.homed.bounded (hfront.symm ▸ room) chain
  refine ⟨chain.pairwise_path built.homed.bounded hroot strict, ?_⟩
  intro n history source fixed
  refine ⟨fun room => ?_, fun part n' source' run => ?_, fun cause source' run => ?_⟩
  · obtain ⟨⟨part, n'⟩, source', hrun, -⟩ := (ProofNode.meets_successors built.homed hsctx
      (hroom room) (history.ready built.homed hsctx (hroom room))).exists_runOn fixed
    exact ⟨part, n', source', hrun⟩
  · obtain ⟨opened, source₂, hopened, hpart⟩ := isOpened_of_history history fixed run
    obtain ⟨full, source₁, hfull, homits⟩ := cursor_omits built.homed hsctx strict hopened hpart
    refine ⟨opened, full, source₁, source₂, hopened, hfull, hpart, fun between keeps => ?_⟩
    obtain ⟨all, ended, hall, hkept, hends⟩ := homits between keeps
    exact ⟨all, ended, hall, hkept, fun room => hends (hroom room)⟩
  · have hstate : n.state = s := (history.holds (k.meets_cursor_isOpened s)).1
    have hrun := runOn_cursor_of_error run
    rw [hstate] at hrun
    exact cursor_refused strict hrun

/-- One step after the start, where a variable was left open. -/
theorem path_repeats_nothing_leftBlind :
    ∃ (root s : ProofState) (opened source₁ source₂ : Source) (full part : Cursor),
      (leftBlind { noRepeats := true }).Begins .inverseTwice root ∧
      (leftBlind { noRepeats := true }).Chain root 1 s ∧
      (s.path.Pairwise fun e f => e.equivalent f = false ∧ f.equivalent e = false) ∧
      ((leftBlind {}).cursor s).runOn opened = (.ok full, source₁) ∧
      ((leftBlind { noRepeats := true }).cursor s).runOn opened = (.ok part, source₂) ∧
      Cursor.Omits [.ofStatement .leftBlind] s.path True full source₁ part source₂ := by
  obtain ⟨root, s, hbegins, hchain, -⟩ := exists_chain_leftBlind { noRepeats := true }
  have hroom := hasRoom_inverseTwice { noRepeats := true }
  obtain ⟨hpairwise, hcursors⟩ :=
    path_repeats_nothing (built_leftBlind { noRepeats := true }) rfl hbegins hchain.follows
  obtain ⟨hopens, hgives, -⟩ :=
    hcursors (.ofState s) .new (leftBlind { noRepeats := true }).source rfl
  obtain ⟨part, n', source', hrun⟩ := hopens hroom
  obtain ⟨opened, full, source₁, source₂, -, hfull, hpart, homits⟩ := hgives part n' source' hrun
  refine ⟨root, s, opened, source₁, source₂, full, part, hbegins, hchain, hpairwise, hfull, hpart,
    ?_⟩
  intro between keeps
  obtain ⟨all, ended, hall, hkept, hends⟩ := homits between keeps
  exact ⟨all, ended, hall, hkept, fun _ => hends hroom⟩

end Kernel

end Equational
