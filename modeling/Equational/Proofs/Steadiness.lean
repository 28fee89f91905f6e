import Equational.Proofs.Reordering
import Equational.Proofs.Search

/-!
# Plans that keep to one order

Without random choices the successors of a state come in the order of the expected equations.
A strategy with a fixed size ranks them by their benefits alone. So where the heuristic goes by
the equations on the way to a state, and by nothing else, the order in which the successors of a
state come depends on these equations only.

That there is one order follows from what is known of the items that a ranking gives: each of
them is the best of those seen, and with a fixed size it is known how many were seen.
-/

namespace Equational

variable {α β : Type}

/-! ### The order of a ranking -/

namespace Ranking

theorem IsBest.unique {pool given : List ((Float32 × α) × Nat)} {e f : (Float32 × α) × Nat}
    (he : IsBest pool given e) (hf : IsBest pool given f) : e = f := by
  rcases he.2.2 f hf.1 hf.2.1 with heq | hef
  · exact heq.symm
  · rcases hf.2.2 e he.1 he.2.1 with heq | hfe
    · exact heq
    · rw [beats_iff] at hef hfe
      omega

/-- If each entry is the best one of a pool that is known beforehand, there is only one order. -/
theorem order_unique {pool : Nat → List ((Float32 × α) × Nat)}
    {given order order' : List ((Float32 × α) × Nat)} (length : order.length = order'.length)
    (best : ∀ before e after, order = before ++ e :: after →
      IsBest (pool (given.length + before.length)) (given ++ before) e)
    (best' : ∀ before e after, order' = before ++ e :: after →
      IsBest (pool (given.length + before.length)) (given ++ before) e) : order = order' := by
  induction order generalizing given order' with
  | nil =>
    cases order' with
    | nil => rfl
    | cons e' order' => simp at length
  | cons e order ih =>
    cases order' with
    | nil => simp at length
    | cons e' order' =>
      obtain rfl : e = e' := (best [] e order rfl).unique (best' [] e' order' rfl)
      have hnext : ∀ l : List ((Float32 × α) × Nat), (∀ before f after,
          e :: l = before ++ f :: after →
            IsBest (pool (given.length + before.length)) (given ++ before) f) →
          ∀ before f after, l = before ++ f :: after →
            IsBest (pool ((given ++ [e]).length + before.length)) (given ++ [e] ++ before) f := by
        intro l hl before f after hsplit
        have hf := hl (e :: before) f after (by rw [hsplit]; rfl)
        simpa [Nat.add_assoc, Nat.add_comm 1] using hf
      rw [ih (by simpa using length) (hnext order best) (hnext order' best')]

/-- With a fixed size, what is given follows from what is taken in. -/
theorem Serves.unique {size : Nat} {l : List (Float32 × α)} {items items' : List α}
    (h : Serves (some size) [] [] (· = l) items) (h' : Serves (some size) [] [] (· = l) items') :
    items = items' := by
  obtain ⟨later, order, hlater, rfl, hperm, hbest⟩ := h
  obtain ⟨later', order', hlater', rfl, hperm', hbest'⟩ := h'
  rw [show later = l from hlater] at hperm hbest
  rw [show later' = l from hlater'] at hperm' hbest'
  have hpool : ∀ {order : List ((Float32 × α) × Nat)},
      (∀ before e after, order = before ++ e :: after →
        ∃ seen, (∀ n, some size = some n → seen = n + (0 + before.length)) ∧
          IsBest (l.zipIdx.take seen) ([] ++ before) e) →
      ∀ before e after, order = before ++ e :: after →
        IsBest (l.zipIdx.take (size + (0 + before.length))) ([] ++ before) e := by
    intro order hbest before e after hsplit
    obtain ⟨seen, hseen, he⟩ := hbest before e after hsplit
    rw [← hseen size rfl]
    exact he
  have hlength : order.length = order'.length := hperm.length_eq.trans hperm'.length_eq.symm
  rw [@order_unique α (fun n => l.zipIdx.take (size + n)) [] order order' hlength (hpool hbest)
    (hpool hbest')]

/-- Another item in the place of each one. -/
def relabel (f : α → β) (e : (Float32 × α) × Nat) : (Float32 × β) × Nat :=
  ((e.1.1, f e.1.2), e.2)

theorem zipIdx_map_relabel (f : α → β) (l : List (Float32 × α)) :
    (l.map fun e => (e.1, f e.2)).zipIdx = l.zipIdx.map (relabel f) := by
  rw [List.zipIdx_map]
  rfl

theorem IsBest.map (f : α → β) {l : List (Float32 × α)} {given : List ((Float32 × α) × Nat)}
    {e : (Float32 × α) × Nat} {seen : Nat} (h : IsBest (l.zipIdx.take seen) given e)
    (hgiven : ∀ d ∈ given, d ∈ l.zipIdx) :
    IsBest ((l.map fun e => (e.1, f e.2)).zipIdx.take seen) (given.map (relabel f))
      (relabel f e) := by
  -- The entries of the list are told apart by their numbers.
  have hnumber : ∀ d ∈ l.zipIdx, ∀ d' ∈ l.zipIdx, relabel f d = relabel f d' → d = d' := by
    intro d hd d' hd' heq
    have hsame : d.2 = d'.2 := congrArg (fun e : (Float32 × β) × Nat => e.2) heq
    have hentry := List.mk_mem_zipIdx_iff_getElem?.1 hd
    have hentry' := List.mk_mem_zipIdx_iff_getElem?.1 hd'
    rw [hsame, hentry'] at hentry
    exact Prod.ext (Option.some.inj hentry).symm hsame
  rw [zipIdx_map_relabel, ← List.map_take]
  obtain ⟨hmem, hnew, hothers⟩ := h
  refine ⟨List.mem_map_of_mem hmem, ?_, ?_⟩
  · intro hold
    obtain ⟨d, hd, heq⟩ := List.mem_map.1 hold
    have hde := hnumber d (hgiven d hd) e (List.mem_of_mem_take hmem) heq
    exact hnew (hde ▸ hd)
  · intro d' hd' hnew'
    obtain ⟨d, hd, rfl⟩ := List.mem_map.1 hd'
    have hdnew : d ∉ given := fun hold => hnew' (List.mem_map_of_mem hold)
    rcases hothers d hd hdnew with rfl | hbeats
    · exact .inl rfl
    · exact .inr hbeats

/-- A ranking looks at the benefits, and not at the items. -/
theorem Serves.map (f : α → β) {capacity : Option Nat} {post : List (Float32 × α) → Prop}
    {post' : List (Float32 × β) → Prop} {items : List α}
    (imp : ∀ l, post l → post' (l.map fun e => (e.1, f e.2)))
    (h : Serves capacity [] [] post items) : Serves capacity [] [] post' (items.map f) := by
  obtain ⟨l, order, hpost, rfl, hperm, hbest⟩ := h
  refine ⟨l.map fun e => (e.1, f e.2), order.map (relabel f), imp l hpost, ?_, ?_, ?_⟩
  · simp [relabel, Function.comp_def]
  · simp only [List.nil_append, zipIdx_map_relabel]
    exact hperm.map (relabel f)
  · intro before' e' after' hsplit
    obtain ⟨before, rest, rfl, rfl, hrest⟩ := List.map_eq_append_iff.1 hsplit
    obtain ⟨e, after, rfl, rfl, rfl⟩ := List.map_eq_cons_iff.1 hrest
    obtain ⟨seen, hseen, he⟩ := hbest before e after rfl
    refine ⟨seen, fun n hn => ?_, ?_⟩
    · rw [List.length_map]
      exact hseen n hn
    · refine he.map f fun d hd => hperm.mem_iff.1 ?_
      simp only [List.nil_append] at hd ⊢
      exact List.mem_append_left _ hd

/-- Where what is taken in follows from something, so does the order in which it is given. -/
theorem exists_order {γ : Type} (size : Nat) (taken : γ → List (Float32 × α)) :
    ∃ order : γ → List α, ∀ c items, Serves (some size) [] [] (· = taken c) items →
      items = order c := by
  have hone : ∀ c, ∃ items, ∀ items', Serves (some size) [] [] (· = taken c) items' →
      items' = items := by
    intro c
    by_cases h : ∃ items, Serves (some size) [] [] (· = taken c) items
    · obtain ⟨items, hitems⟩ := h
      exact ⟨items, fun items' hitems' => hitems'.unique hitems⟩
    · exact ⟨[], fun items' hitems' => absurd ⟨items', hitems'⟩ h⟩
  choose order horder using hone
  exact ⟨order, horder⟩

end Ranking

/-! ### Steady heuristics -/

/-- There is a benefit to predict for every state, and it depends on the rules and the equations on
the way to the state only. -/
def Heuristic.IsSteady (h : Heuristic) : Prop :=
  ∃ benefit : List Rule → List Equation → Float32, ∀ (s : ProofState) (source : Source),
    ((h.predict s).runOn source).1 = .ok (benefit source.rules s.path)

/-- Where states are ranked, the heuristic is steady and the strategy has a fixed size. -/
def Plan.IsSteady (p : Plan) : Prop :=
  ∀ h stopping, p.heuristic = some h → p.stopping = some stopping →
    h.IsSteady ∧ ∃ size, 0 < size ∧ stopping = .fixed size

theorem TermGraph.distanceFrom_leaf {γ : Type} [Cost γ] (mismatch : γ) (a a' b : TermGraph)
    {leaf : Node} (isLeaf : leaf.kind ≠ .func) (depth depth' : Nat) (node : Node) :
    distanceFrom mismatch a b depth leaf node = distanceFrom mismatch a' b depth' leaf node := by
  cases leaf with
  | free id => cases node <;> cases depth <;> cases depth' <;> rfl
  | const symbol => cases node <;> cases depth <;> cases depth' <;> rfl
  | func index => exact absurd rfl isLeaf

/-- The distance of a stored term does not depend on what its storage keeps out of reach. -/
theorem Backing.distance_stored {γ : Type} [Cost γ] (mismatch : γ) (b b' : Backing) (t : Term)
    (g : TermGraph) :
    (b.stored t).graph.distance mismatch g = (b'.stored t).graph.distance mismatch g := by
  cases t with
  | var id =>
    simp only [TermGraph.distance, stored]
    rw [TermGraph.distanceFrom_leaf mismatch _ { root := .free id, records := b'.spare } g
      (by simp [Node.kind])]
  | const symbol =>
    simp only [TermGraph.distance, stored]
    rw [TermGraph.distanceFrom_leaf mismatch _ { root := .const symbol, records := b'.spare } g
      (by simp [Node.kind])]
  | app symbol args => rfl

theorem EditDistance.predict_statement (h : EditDistance) (rules : List Rule) (ctx ctx' : Context)
    {l l' : Line} (same : l.equation = l'.equation) :
    h.predict rules (l.statement ctx) = h.predict rules (l'.statement ctx') := by
  have hdistance : ∀ rule : Rule, h.ofStatements (l.statement ctx) rule.statement =
      h.ofStatements (l'.statement ctx') rule.statement := by
    intro rule
    have hleft := Backing.distance_stored h.mismatch l.left l'.left l'.equation.lhs
    have hright := Backing.distance_stored h.mismatch l.right l'.right l'.equation.rhs
    simp only [ofStatements, ofExpressions, Line.statement, Statement.lhs, Statement.rhs,
      Expression.graph, same, hleft, hright]
  simp only [predict, hdistance]

theorem EditDistance.isSteady_heuristic (h : EditDistance) : h.heuristic.IsSteady := by
  -- The context of a statement does not matter, so any will do.
  let ctx : Context := .leftBlind
  refine ⟨fun rules path => path.getLast?.elim 0 fun e =>
    h.predict rules ((⟨e, {}, {}⟩ : Line).statement ctx), fun s source => ?_⟩
  show Except.ok (h.predict source.rules s.statement) = _
  dsimp only
  rw [s.getLast?_path]
  exact congrArg Except.ok (h.predict_statement source.rules s.ctx ctx rfl)

/-! ### One order for each path -/

variable {k : Kernel} {s : ProofState}

theorem Stopping.start_fixed {size : Nat} (positive : 0 < size) :
    (Stopping.fixed size).start = .ok (.fixed { size }) := by
  have hsize : decide (1 ≤ size) = true := decide_eq_true positive
  rw [start, FixedStrategy.make, hsize]
  rfl

theorem Heuristic.IsSteady.isTotal {h : Heuristic} (steady : h.IsSteady) : h.IsTotal := by
  obtain ⟨benefit, hbenefit⟩ := steady
  intro s source
  exact ⟨_, hbenefit s source⟩

theorem Heuristic.IsSteady.exists_benefit {h : Heuristic} (steady : h.IsSteady)
    (rules : List Rule) :
    ∃ benefit : List Equation → Float32, ∀ s : ProofState,
      (h.predict s).Meets rules False (· = benefit s.path) := by
  obtain ⟨benefit, hbenefit⟩ := steady
  refine ⟨benefit rules, fun s source hs => ?_⟩
  have hvalue := hbenefit s source
  have hfixed := h.fixed s source
  rcases hrun : (h.predict s).runOn source with ⟨outcome, source'⟩
  rw [hrun] at hvalue hfixed
  subst hvalue
  exact ⟨hfixed.trans hs, congrArg (benefit · s.path) hs⟩

theorem Plan.IsSteady.isTotal {p : Plan} (steady : p.IsSteady) : p.IsTotal := by
  intro h stopping hheuristic hstopping
  obtain ⟨hsteady, size, hsize, rfl⟩ := steady h stopping hheuristic hstopping
  exact ⟨hsteady.isTotal, _, Stopping.start_fixed hsize⟩

/-- What a ranking takes in of the successors of a state follows from the path. -/
theorem Ranking.Foretold.eq_map {h : Heuristic} {benefit : List Equation → Float32}
    (hbenefit : ∀ s : ProofState, (h.predict s).Meets k.rules False (· = benefit s.path))
    {expected : List Equation} {l : List (Float32 × ProofState)}
    (foretold : Foretold k.rules (fun t => h.predict t)
      (Delivers false ProofState.forefront s.IsParent expected) l) :
    l.map (fun e => (e.1, e.2.forefront)) =
      expected.map fun e => (benefit (s.path ++ [e]), e) := by
  obtain ⟨⟨hlist, hparent⟩, hpredicted⟩ := foretold
  rw [← hlist.eq, List.map_map, List.map_map]
  refine List.map_congr_left fun entry hentry => ?_
  obtain ⟨source, source', fixed, hrun⟩ := hpredicted entry hentry
  have hvalue := ((hbenefit entry.2).of_runOn fixed hrun).2
  have hpath := (hparent entry.2 (List.mem_map_of_mem hentry)).path
  simp only [Function.comp_apply]
  rw [hvalue, hpath]

/-- What can come after a path. -/
noncomputable def Kernel.next (k : Kernel) (path : List Equation) : List Equation :=
  path.getLast?.elim [] (k.after path)

theorem Kernel.meets_cursor_next (homed : k.IsHomed) (plain : k.options.randomised = false)
    (hctx : s.ctx = k.ctx) (room : k.HasRoom s.forefront) :
    (k.cursor s).Meets k.rules False fun c => c.supply.Runs k.rules False
      (Delivers false ProofState.forefront s.IsParent (k.next s.path)) := by
  have hmeets : (k.cursor s).Meets k.rules False _ := Kernel.meets_cursor homed hctx (.inr room)
  rw [plain, expected_eq_after hctx] at hmeets
  rw [next, s.getLast?_path]
  exact hmeets.mono fun c hc => hc.2

theorem Heuristic.IsSteady.exists_order {h : Heuristic} (steady : h.IsSteady) (k : Kernel)
    {size : Nat} (positive : 0 < size) :
    ∃ order : List Equation → List Equation, ∀ (s : ProofState) (c : Cursor),
      c.supply.Runs k.rules False
        (Delivers false ProofState.forefront s.IsParent (k.next s.path)) →
      (c.rank h (.fixed { size })).Meets k.rules False fun ranked =>
        ranked.supply.Runs k.rules False
          (Delivers false ProofState.forefront s.IsParent (order s.path)) := by
  obtain ⟨benefit, hbenefit⟩ := steady.exists_benefit k.rules
  obtain ⟨order, horder⟩ := Ranking.exists_order size fun path : List Equation =>
    (k.next path).map fun e => (benefit (path ++ [e]), e)
  have hpredict : ∀ t, (h.predict t).Meets k.rules False fun _ => True :=
    fun t => (hbenefit t).mono fun _ _ => trivial
  have hkeeps := Stopping.keeps_start (Stopping.start_fixed positive)
  refine ⟨order, fun s c runs => ?_⟩
  refine (Reply.meets_toDraws (Supply.runs_rank hpredict runs hkeeps)).bind fun supply hruns => ?_
  refine .pure (hruns.mono fun items hitems => ⟨?_, ?_⟩)
  · exact horder s.path _ (hitems.map ProofState.forefront fun l hl => hl.eq_map hbenefit)
  · intro t ht
    obtain ⟨rest, ⟨-, hparent⟩, hperm⟩ := hitems.perm
    exact hparent t (hperm.mem_iff.1 ht)

/-- **Steady plans keep to one order.** If the plan is steady and there are no random choices, the
successors of a state come in an order that depends on the path to the state only, where there is
room for the state. -/
theorem Plan.IsSteady.exists_order {p : Plan} (steady : p.IsSteady) (homed : k.IsHomed)
    (plain : k.options.randomised = false) :
    ∃ order : List Equation → List Equation, ∀ s : ProofState, s.ctx = k.ctx →
      k.HasRoom s.forefront → (p.successors k s).Meets k.rules False fun c =>
        c.supply.Runs k.rules False
        (Delivers false ProofState.forefront s.IsParent (order s.path)) := by
  by_cases hranks : ∃ h stopping, p.heuristic = some h ∧ p.stopping = some stopping
  · obtain ⟨h, stopping, hheuristic, hstopping⟩ := hranks
    obtain ⟨hsteady, size, hsize, rfl⟩ := steady h stopping hheuristic hstopping
    obtain ⟨order, horder⟩ := hsteady.exists_order k hsize
    refine ⟨order, fun s hctx room =>
      (Kernel.meets_cursor_next homed plain hctx room).bind fun c hc => ?_⟩
    have hstart := Stopping.start_fixed hsize
    rw [arrange, hheuristic, hstopping]
    refine (Draws.meets_liftM (.inr ⟨_, hstart⟩)).bind fun strategy hstrategy => ?_
    obtain rfl := Except.ok.inj (hstart.symm.trans hstrategy)
    exact horder s c hc
  · refine ⟨k.next, fun s hctx room =>
      (Kernel.meets_cursor_next homed plain hctx room).bind fun c hc => ?_⟩
    rw [arrange]
    split
    next h stopping hheuristic hstopping => exact absurd ⟨h, stopping, hheuristic, hstopping⟩ hranks
    next => exact .pure hc

end Equational
