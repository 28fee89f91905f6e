import Equational.Proofs.Context
import Equational.Proofs.Successor

/-!
# The order in which successors are found

A kernel without random choices finds the successors of a state in one fixed order, and
`Equation.expansions` lists their forefronts in this order. Here this is said of the cursor
as its users see it: ask whether it is valid, take the state it stands on, move it on, and
so to the end. If there is room for the rewrites, no violation is met on the way, whatever
else is drawn in between.

What the enumeration ranges over is said without the lists that the kernel makes: the sites
are the places where a subterm stands, the candidates are the variables of the equation and
the constants of the signature, and each of these lists is in ascending order.

A state may have been asked for its verdict or its successors before. A cursor that was
opened for the verdict is kept and handed out later, once; this makes no difference to what
it enumerates.
-/

namespace Equational

/-! ### What is enumerated -/

/-- The left side comes first, and of two places on a side the one that is further out or further to
the left. -/
def Site.Before (a b : Site) : Prop :=
  a.side = .lhs ∧ b.side = .rhs ∨ a.side = b.side ∧ a.occurrence.path < b.occurrence.path

theorem Equation.pairwise_sites (e : Equation) : e.sites.Pairwise Site.Before := by
  refine List.pairwise_append.2 ⟨?_, ?_, ?_⟩
  · exact List.pairwise_map.2 (e.lhs.pairwise_occurrences.imp fun h => .inr ⟨rfl, h⟩)
  · exact List.pairwise_map.2 (e.rhs.pairwise_occurrences.imp fun h => .inr ⟨rfl, h⟩)
  · intro a ha b hb
    obtain ⟨_, _, rfl⟩ := List.mem_map.1 ha
    obtain ⟨_, _, rfl⟩ := List.mem_map.1 hb
    exact .inl ⟨rfl, rfl⟩

/-- The lists that an enumeration of the rewrites of an equation goes through: the places of the
equation, its variables and the constants, each once and in order. -/
structure Equation.Ranges (w : Equation) (signature : Signature) (sites : List Site)
    (ids constants : List Nat) : Prop where
  sites_before : sites.Pairwise Site.Before
  mem_sites (site : Site) :
    site ∈ sites ↔ (w.side site.side).HasAt site.occurrence.path site.occurrence.term
  ids_ascending : ids.Pairwise (· < ·)
  mem_ids (id : Nat) : id ∈ ids ↔ id ∈ w.vars
  constants_ascending : constants.Pairwise (· < ·)
  mem_constants (symbol : Nat) : symbol ∈ constants ↔ signature.declares symbol 0 = true

theorem Equation.ranges (w : Equation) (signature : Signature) :
    w.Ranges signature w.sites w.freeIds.keys signature.constants where
  sites_before := w.pairwise_sites
  mem_sites _ := mem_sites
  ids_ascending := w.freeIds.keys_ascending
  mem_ids _ := mem_keys_freeIds
  constants_ascending := List.pairwise_lt_range.filter _
  mem_constants _ := Signature.mem_constants

/-! ### Driving a cursor -/

/-- Driven to its end by asking whether it is valid, taking the state it stands on and moving it
on, the cursor gives states one rewrite after `s` with just these forefronts in this order. -/
def Cursor.Enumerates (rules : List Rule) (s : ProofState) : Cursor → List Equation → Prop
  | c, [] => c.isValid = false
  | c, e :: es =>
    c.isValid = true ∧ (∃ t, c.get = .ok t ∧ t.forefront = e ∧ s.IsParent t) ∧
      ∀ source : Source, source.rules = rules →
        ∃ (c' : Cursor) (source' : Source),
          (Cursor.advance.runOn c).run source = ((.ok (), c'), source') ∧
            source'.rules = rules ∧ Enumerates rules s c' es

variable {rules : List Rule} {lenient : Prop} {s : ProofState}

/-- A cursor enumerates the list that every run of its supply delivers. -/
theorem Cursor.enumerates_of_runs {kind : CursorKind} {supply : Supply ProofState}
    {es : List Equation}
    (runs : supply.Runs rules False (Delivers false ProofState.forefront s.IsParent es)) :
    (Cursor.mk kind supply).Enumerates rules s es := by
  induction es generalizing supply with
  | nil =>
    cases supply with
    | done gauge => rfl
    | stuck level gauge => exact runs.elim
    | item value gauge next =>
      -- An item would be one too many.
      obtain ⟨rest, hrest, _⟩ := Reply.Runs.exists_items (runs { rules } rfl)
      exact absurd hrest.eq (List.cons_ne_nil _ _)
  | cons e es ih =>
    cases supply with
    | done gauge => exact absurd runs.1.eq.symm (List.cons_ne_nil _ _)
    | stuck level gauge => exact runs.elim
    | item value gauge next =>
      obtain ⟨rest, hrest, hparent⟩ := Reply.Runs.exists_items (runs { rules } rfl)
      have hvalue : value.forefront = e := (List.cons.inj hrest.eq).1
      refine ⟨rfl, ⟨value, rfl, hvalue, hparent value List.mem_cons_self⟩, ?_⟩
      intro source hs
      have hnext : (next source).Runs rules False
          (Delivers false ProofState.forefront s.IsParent es) :=
        (runs source hs).mono fun rest ⟨harranged, hparent⟩ =>
          ⟨(List.cons.inj harranged.eq).2, fun t ht => hparent t (List.mem_cons_of_mem _ ht)⟩
      rw [run_advance_item]
      revert hnext
      cases next source with
      | broken cause left source' => exact False.elim
      | rest supply source' =>
        rintro ⟨hs', hruns⟩
        exact ⟨⟨kind, supply⟩, source', rfl, hs', ih hruns⟩

/-! ### What was asked of a state before -/

namespace ProofNode

/-- The state with what was found out about it by asking for its verdict and its successors, any
number of times and in any order, while the rules stay the same. -/
inductive History (k : Kernel) (s : ProofState) : ProofNode → Prop
  | new : History k s (.ofState s)
  | complete {n n' : ProofNode} {verdict : Verdict} {source source' : Source}
      (earlier : History k s n) (fixed : source.rules = k.rules)
      (run : (n.complete k).runOn source = (.ok (verdict, n'), source')) : History k s n'
  | successors {n n' : ProofNode} {cursor : Cursor} {source source' : Source}
      (earlier : History k s n) (fixed : source.rules = k.rules)
      (run : (n.successors k).runOn source = (.ok (cursor, n'), source')) : History k s n'

/-- A cursor that has not been moved yet. -/
def IsFresh (k : Kernel) (s : ProofState) (c : Cursor) : Prop :=
  c.supply.Runs k.rules False
    (Delivers k.options.randomised ProofState.forefront s.IsParent (k.expected s))

/-- The cursor that is kept, if any, has not been moved. -/
def IsReady (k : Kernel) (s : ProofState) (n : ProofNode) : Prop :=
  n.state = s ∧ ∀ c, n.prepared = some c → IsFresh k s c

variable {k : Kernel} {n : ProofNode}

/-- The node is about the state, and the cursor that is kept, if any, satisfies `P`. -/
def Holds (P : Cursor → Prop) (s : ProofState) (n : ProofNode) : Prop :=
  n.state = s ∧ ∀ c, n.prepared = some c → P c

section Holds

variable {P : Cursor → Prop} (opens : (k.cursor s).Meets k.rules lenient P)

include opens

theorem meets_complete_of (holds : n.Holds P s) :
    (n.complete k).Meets k.rules lenient fun answer => answer.2.Holds P s := by
  obtain ⟨rfl, hprepared⟩ := holds
  rw [complete]
  split
  next => exact .pure ⟨rfl, hprepared⟩
  next =>
    split
    next => exact .pure ⟨rfl, hprepared⟩
    next =>
      dsimp only
      split
      next cursor hsome =>
        exact .pure ⟨rfl, fun c hc => Option.some.inj hc ▸ hprepared cursor hsome⟩
      next =>
        refine opens.bind fun cursor hcursor => .pure ⟨rfl, ?_⟩
        exact fun c hc => Option.some.inj hc ▸ hcursor

/-- A cursor is handed out, and it is as it was when it was opened. -/
theorem meets_successors_of (holds : n.Holds P s) :
    (n.successors k).Meets k.rules lenient fun answer => P answer.1 ∧ answer.2.Holds P s := by
  obtain ⟨rfl, hprepared⟩ := holds
  rw [successors]
  split
  next cursor hsome =>
    exact .pure ⟨hprepared cursor hsome, rfl, fun c hc => nomatch hc⟩
  next hnone =>
    refine opens.bind fun cursor hcursor => .pure ⟨hcursor, rfl, ?_⟩
    intro c hc
    rw [hnone] at hc
    cases hc

theorem History.holds (history : n.History k s) : n.Holds P s := by
  induction history with
  | new => exact ⟨rfl, fun c hc => nomatch hc⟩
  | complete _ fixed run ih => exact ((meets_complete_of opens ih).of_runOn fixed run).2
  | successors _ fixed run ih => exact ((meets_successors_of opens ih).of_runOn fixed run).2.2

end Holds

theorem meets_cursor_isFresh (homed : k.IsHomed) (hctx : s.ctx = k.ctx)
    (room : k.HasRoom s.forefront) : (k.cursor s).Meets k.rules False (IsFresh k s) :=
  (Kernel.meets_cursor homed hctx (.inr room)).mono fun _ h => h.2

theorem meets_complete (homed : k.IsHomed) (hctx : s.ctx = k.ctx) (room : k.HasRoom s.forefront)
    (ready : n.IsReady k s) :
    (n.complete k).Meets k.rules False fun answer => answer.2.IsReady k s :=
  meets_complete_of (meets_cursor_isFresh homed hctx room) ready

/-- A cursor is handed out, and it has not been moved. -/
theorem meets_successors (homed : k.IsHomed) (hctx : s.ctx = k.ctx) (room : k.HasRoom s.forefront)
    (ready : n.IsReady k s) :
    (n.successors k).Meets k.rules False fun answer =>
      IsFresh k s answer.1 ∧ answer.2.IsReady k s :=
  meets_successors_of (meets_cursor_isFresh homed hctx room) ready

theorem History.ready (homed : k.IsHomed) (hctx : s.ctx = k.ctx) (room : k.HasRoom s.forefront)
    (history : n.History k s) : n.IsReady k s :=
  history.holds (meets_cursor_isFresh homed hctx room)

/-- **Successors in their order.** In a kernel without random choices that keeps repeated equations,
a state that a proof can reach and whose forefront there is room for, whatever was asked of it
before, hands out a cursor that enumerates the expansions of the forefront: moved above the
variables of the rules, for each site from the outside in, left side first, each rule, each use of
the rule and each choice of candidates. -/
theorem successors_enumerate {k : Kernel} (built : k.Built)
    (ordered : k.options.randomised = false) (repeating : k.options.noRepeats = false)
    {target : Statement} {root s : ProofState} (begins : k.Begins target root) {steps : Nat}
    (chain : k.Chain root steps s) (room : k.HasRoom s.forefront) {n : ProofNode}
    (history : n.History k s) {source : Source} (fixed : source.rules = k.rules) :
    ∃ (sites : List Site) (ids constants : List Nat) (cursor : Cursor) (n' : ProofNode)
      (source' : Source),
      (s.forefront.above k.bound).Ranges k.ctx.signature sites ids constants ∧
      (n.successors k).runOn source = (.ok (cursor, n'), source') ∧ source'.rules = k.rules ∧
      cursor.Enumerates k.rules s (sites.flatMap fun site => k.equations.flatMap fun rule =>
        (rule.uses site.occurrence.term).flatMap fun use =>
          (Candidate.choices (ids.map .free ++ constants.map .const) use.2).map fun choice =>
            (s.forefront.above k.bound).replaceAt site (use.1.bind (Candidate.image choice))) := by
  have hctx : s.ctx = k.ctx := chain.ctx begins.start.1
  obtain ⟨⟨cursor, n'⟩, source', hrun, hfixed, hfresh, _⟩ :=
    (meets_successors built.homed hctx room (history.ready built.homed hctx room)).exists_runOn
      fixed
  refine ⟨_, _, _, cursor, n', source', Equation.ranges _ _, hrun, hfixed,
    Cursor.enumerates_of_runs ?_⟩
  rw [IsFresh, ordered, Kernel.expected, repeating, Kernel.expansions, hctx] at hfresh
  exact hfresh

/-- After the verdict, the cursor that was kept for it is handed out. The axiom leaves a variable
open, and there is a constant to take its place. -/
theorem successors_enumerate_leftBlind :
    ∃ (root s : ProofState) (verdict : Verdict) (n : ProofNode) (source : Source),
      (Kernel.leftBlind {}).Begins .inverseTwice root ∧ (Kernel.leftBlind {}).Chain root 1 s ∧
      ((ofState s).complete (.leftBlind {})).runOn (Kernel.leftBlind {}).source =
        (.ok (verdict, n), source) ∧
      ∃ (sites : List Site) (ids constants : List Nat) (cursor : Cursor) (n' : ProofNode)
        (source' : Source),
        (s.forefront.above 2).Ranges Context.leftBlind.signature sites ids constants ∧
        (n.successors (.leftBlind {})).runOn source = (.ok (cursor, n'), source') ∧
        cursor.Enumerates (Kernel.leftBlind {}).rules s (sites.flatMap fun site =>
          [(⟨.app 0 [.var 0, .var 1], .app 1 [.var 1]⟩ : Equation)].flatMap fun rule =>
            (rule.uses site.occurrence.term).flatMap fun use =>
              (Candidate.choices (ids.map .free ++ constants.map .const) use.2).map
                fun choice => (s.forefront.above 2).replaceAt site
                  (use.1.bind (Candidate.image choice))) := by
  obtain ⟨root, s, hbegins, hchain, _⟩ := Kernel.exists_chain_leftBlind {}
  have hbuilt := Kernel.built_leftBlind {}
  have hctx : s.ctx = (Kernel.leftBlind {}).ctx := hchain.ctx hbegins.start.1
  have hroom : (Kernel.leftBlind {}).HasRoom s.forefront :=
    Kernel.HasRoom.chain hbuilt.homed.bounded
      (hbegins.start.2.1 ▸ Kernel.hasRoom_inverseTwice {}) hchain
  have hfixed : (Kernel.leftBlind {}).source.rules = (Kernel.leftBlind {}).rules := rfl
  obtain ⟨⟨verdict, n⟩, source, hcomplete, hrules, _⟩ :=
    (meets_complete hbuilt.homed hctx hroom
      (History.new.ready hbuilt.homed hctx hroom)).exists_runOn hfixed
  obtain ⟨sites, ids, constants, cursor, n', source', hranges, hrun, _, henumerates⟩ :=
    successors_enumerate hbuilt rfl rfl hbegins hchain hroom (.complete .new hfixed hcomplete)
      hrules
  exact ⟨root, s, verdict, n, source, hbegins, hchain, hcomplete, sites, ids, constants, cursor,
    n', source', hranges, hrun, henumerates⟩

theorem lasts_successors_remote {options : KernelOptions} {root : ProofState}
    (begins : (Kernel.leftBlind options).Begins .remote root) :
    ((ofState root).successors (.leftBlind options)).Lasts (Kernel.leftBlind options).rules
      fun _ => False :=
  (Kernel.lasts_cursor_remote begins.start.1 begins.start.2.1).bind fun _ h => h.elim

/-- Where there is no room for the target, not even a cursor is handed out. -/
theorem successors_enumerate_not_remote :
    (Kernel.leftBlind {}).Built ∧ ∃ root, (Kernel.leftBlind {}).Begins .remote root ∧
      ∀ source : Source, source.rules = (Kernel.leftBlind {}).rules →
        ∃ cause, (((ofState root).successors (.leftBlind {})).runOn source).1 = .error cause := by
  obtain ⟨root, hbegins⟩ := Kernel.exists_begins_remote {}
  refine ⟨Kernel.built_leftBlind {}, root, hbegins, fun source fixed => ?_⟩
  exact (lasts_successors_remote hbegins).exists_error fixed

end ProofNode

end Equational
