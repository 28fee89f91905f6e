import Equational.Proofs.Driving
import Equational.Proofs.Enumeration
import Equational.Proofs.Repetition

/-!
# Random choices reorder

A randomised kernel draws the rules one by one from those not yet tried and shuffles the
candidates for each variable. The same states come up as in the kernel that makes no random
choices, and each of them as often: the draws decide about the order and about nothing else.
If there is room for the target, this holds for every source and for everything that others
draw from it in between.
-/

namespace Equational

theorem ProofState.getLast?_path (s : ProofState) : s.path.getLast? = some s.forefront := by
  simp [path, stages, forefront]

theorem ProofState.forefront_eq_of_path_eq {s t : ProofState} (h : s.path = t.path) :
    s.forefront = t.forefront := by
  apply Option.some.inj
  rw [← getLast?_path, ← getLast?_path, h]

/-- Whatever was asked of a state before, it hands out a cursor that can be driven to its end and
gives what is expected. -/
theorem ProofNode.History.exists_exhausts {k : Kernel} {s : ProofState} {n : ProofNode}
    (homed : k.IsHomed) (hctx : s.ctx = k.ctx) (room : k.HasRoom s.forefront)
    (history : n.History k s) {source : Source} (fixed : source.rules = k.rules) :
    ∃ c n' source', (n.successors k).runOn source = (.ok (c, n'), source') ∧
      source'.rules = k.rules ∧ c.Exhausts k.rules fun items =>
        Arranged k.options.randomised (items.map ProofState.forefront) (k.expected s) := by
  obtain ⟨⟨c, n'⟩, source', hrun, hs, hfresh, -⟩ :=
    (meets_successors homed hctx room (history.ready homed hctx room)).exists_runOn fixed
  have hruns := hfresh.mono fun _ hitems => hitems.1
  exact ⟨c, n', source', hrun, hs, hruns.exhausts c.kind⟩

namespace Kernel

variable {k k₁ : Kernel} {s s₁ root : ProofState} {target : Statement} {steps : Nat}

/-- What is expected of a state depends on the rules, on its forefront and, where repetitions are
left out, on its path. -/
theorem expected_congr (hrules : k₁.equations = k.equations) (hbound : k₁.bound = k.bound)
    (hrepeats : k₁.options.noRepeats = k.options.noRepeats) (hctx : s₁.ctx = s.ctx)
    (hfront : s₁.forefront = s.forefront)
    (hpath : k.options.noRepeats = true → s₁.path = s.path) : k₁.expected s₁ = k.expected s := by
  rw [expected, expected, expansions, expansions, hrepeats, hctx, hfront, hrules, hbound]
  by_cases hstrict : k.options.noRepeats = true
  · rw [hpath hstrict]
  · simp only [hstrict]
    rfl

theorem Begins.congr (hctx : k₁.ctx = k.ctx) (begins : k.Begins target s) :
    k₁.Begins target s := by
  obtain ⟨source, source', hrun⟩ := begins
  refine ⟨source, source', ?_⟩
  rw [prove, hctx]
  exact hrun

theorem Chain.exists_same_path (homed : k.IsHomed) (homed₁ : k₁.IsHomed) (hctx : k₁.ctx = k.ctx)
    (hrules : k₁.equations = k.equations) (hbound : k₁.bound = k.bound)
    (hrepeats : k₁.options.noRepeats = k.options.noRepeats) (hroot : root.ctx = k.ctx)
    (room : k.HasRoom root.forefront) (chain : k.Chain root steps s) :
    ∃ s₁, k₁.Chain root steps s₁ ∧ s₁.path = s.path := by
  induction chain with
  | refl => exact ⟨root, .refl, rfl⟩
  | @step steps t u chain next ih =>
    obtain ⟨t₁, chain₁, hpath⟩ := ih
    have htctx := chain.ctx hroot
    have htctx₁ := chain₁.ctx (hroot.trans hctx.symm)
    have hfront := ProofState.forefront_eq_of_path_eq hpath
    have hsame : k₁.expected t₁ = k.expected t :=
      expected_congr hrules hbound hrepeats (by rw [htctx, htctx₁, hctx]) hfront fun _ => hpath
    have hroom : k₁.HasRoom t₁.forefront := by
      rw [hfront]
      exact (room.chain homed.bounded chain).congr hrules.symm hbound.symm
    obtain ⟨u₁, next₁, hu⟩ :=
      exists_successor homed₁ htctx₁ hroom (hsame ▸ next.expected homed.bounded)
    refine ⟨u₁, chain₁.step next₁, ?_⟩
    rw [next₁.isParent.path, next.isParent.path, hpath, hu]

/-- **Random choices reorder and do nothing else.** Take a state that a proof can reach in a kernel
and whose forefront there is room for, and another kernel with the same rules that makes no random
choices. For every state of the other kernel with the same forefront, and the same path if
repetitions are left out, there is one list of equations: the cursors of the other kernel give it,
and those of the first kernel give a permutation of it. No cursor fails, whatever was asked of the
states before and whatever else is drawn in between. If there is room for the target then there is
such a state, with the same path. -/
theorem random_choices_reorder (built : k.Built) (built₁ : k₁.Built)
    (ordered : k₁.options.randomised = false) (hctx : k₁.ctx = k.ctx)
    (hrules : k₁.equations = k.equations)
    (hrepeats : k₁.options.noRepeats = k.options.noRepeats) (begins : k.Begins target root)
    (chain : k.Chain root steps s) (room : k.HasRoom s.forefront) :
    (k.HasRoom target.equation →
      ∃ root₁ s₁, k₁.Begins target root₁ ∧ k₁.Chain root₁ steps s₁ ∧ s₁.path = s.path) ∧
    ∀ s₁, k₁.Reaches s₁ → s₁.forefront = s.forefront →
      (k.options.noRepeats = true → s₁.path = s.path) →
      ∃ es : List Equation,
        (∀ n : ProofNode, n.History k₁ s₁ → ∀ source : Source, source.rules = k₁.rules →
          ∃ c n' source', (n.successors k₁).runOn source = (.ok (c, n'), source') ∧
            source'.rules = k₁.rules ∧
            c.Exhausts k₁.rules fun items => items.map ProofState.forefront = es) ∧
        (∀ n : ProofNode, n.History k s → ∀ source : Source, source.rules = k.rules →
          ∃ c n' source', (n.successors k).runOn source = (.ok (c, n'), source') ∧
            source'.rules = k.rules ∧
            c.Exhausts k.rules fun items => (items.map ProofState.forefront).Perm es) := by
  obtain ⟨hroot, hfront, -⟩ := begins.start
  have hsctx := chain.ctx hroot
  have hbound := built₁.kept.bound_congr built.kept hrules
  constructor
  · intro hroom
    have hstart : k.HasRoom root.forefront := hfront.symm ▸ hroom
    obtain ⟨s₁, chain₁, hpath⟩ :=
      chain.exists_same_path built.homed built₁.homed hctx hrules hbound hrepeats hroot hstart
    exact ⟨root, s₁, begins.congr hctx, chain₁, hpath⟩
  · intro s₁ reaches hsame hpath
    have hsctx₁ := reaches.ctx
    have hroom₁ : k₁.HasRoom s₁.forefront := hsame.symm ▸ room.congr hrules.symm hbound.symm
    have hexpected : k₁.expected s₁ = k.expected s :=
      expected_congr hrules hbound hrepeats (by rw [hsctx, hsctx₁, hctx]) hsame hpath
    refine ⟨k.expected s, ?_, ?_⟩
    · intro n history source fixed
      obtain ⟨c, n', source', hrun, hs, hexhausts⟩ :=
        history.exists_exhausts built₁.homed hsctx₁ hroom₁ fixed
      rw [ordered, hexpected] at hexhausts
      exact ⟨c, n', source', hrun, hs, hexhausts.mono fun _ harranged => harranged.eq⟩
    · intro n history source fixed
      obtain ⟨c, n', source', hrun, hs, hexhausts⟩ :=
        history.exists_exhausts built.homed hsctx room fixed
      exact ⟨c, n', source', hrun, hs, hexhausts.mono fun _ harranged => harranged.perm⟩

/-- One step after the start, with and without random choices, where a constant and a variable may
take the place of the one that the axiom leaves open. -/
theorem random_choices_reorder_leftBlind :
    ∃ (root s s₁ : ProofState) (es : List Equation) (c c₁ : Cursor) (n n₁ : ProofNode)
      (source source₁ : Source),
      (leftBlind { randomised := true }).Begins .inverseTwice root ∧
      (leftBlind { randomised := true }).Chain root 1 s ∧ s₁.path = s.path ∧
      ((ProofNode.ofState s₁).successors (leftBlind {})).runOn (leftBlind {}).source =
        (.ok (c₁, n₁), source₁) ∧
      c₁.Exhausts [.ofStatement .leftBlind] (fun items => items.map ProofState.forefront = es) ∧
      ((ProofNode.ofState s).successors (leftBlind { randomised := true })).runOn
        (leftBlind { randomised := true }).source = (.ok (c, n), source) ∧
      c.Exhausts [.ofStatement .leftBlind]
        (fun items => (items.map ProofState.forefront).Perm es) := by
  obtain ⟨root, s, hbegins, hchain, -⟩ := exists_chain_leftBlind { randomised := true }
  have hroom : (leftBlind { randomised := true }).HasRoom s.forefront :=
    HasRoom.chain (built_leftBlind _).homed.bounded
      (hbegins.start.2.1 ▸ hasRoom_inverseTwice { randomised := true }) hchain
  obtain ⟨hfollows, hcursors⟩ :=
    random_choices_reorder (built_leftBlind { randomised := true }) (built_leftBlind {}) rfl rfl
      rfl rfl hbegins hchain hroom
  obtain ⟨root₁, s₁, hbegins₁, hchain₁, hpath⟩ := hfollows (hasRoom_inverseTwice _)
  obtain ⟨es, hordered, hrandom⟩ := hcursors s₁ ⟨_, root₁, 1, hbegins₁, hchain₁⟩
    (ProofState.forefront_eq_of_path_eq hpath) nofun
  obtain ⟨c₁, n₁, source₁, hrun₁, -, hexhausts₁⟩ :=
    hordered (.ofState s₁) .new (leftBlind {}).source rfl
  obtain ⟨c, n, source, hrun, -, hexhausts⟩ :=
    hrandom (.ofState s) .new (leftBlind { randomised := true }).source rfl
  exact ⟨root, s, s₁, es, c, c₁, n, n₁, source, source₁, hbegins, hchain, hpath, hrun₁,
    hexhausts₁, hrun, hexhausts⟩

/-- Where there is no room for the target, no cursor is handed out, whatever is drawn. -/
theorem random_choices_reorder_not_remote :
    (leftBlind { randomised := true }).Built ∧
    ∃ root, (leftBlind { randomised := true }).Begins .remote root ∧
      ∀ source : Source, source.rules = (leftBlind { randomised := true }).rules →
        ∃ cause, (((ProofNode.ofState root).successors
          (leftBlind { randomised := true })).runOn source).1 = .error cause := by
  obtain ⟨root, hbegins⟩ := exists_begins_remote { randomised := true }
  refine ⟨built_leftBlind _, root, hbegins, fun source fixed => ?_⟩
  exact (ProofNode.lasts_successors_remote hbegins).exists_error fixed

end Kernel

end Equational
