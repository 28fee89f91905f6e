import Equational.Proofs.Renaming
import Equational.Proofs.Successor
import Mathlib.Data.Nat.Find
import Mathlib.Order.Bounds.Defs

/-!
# Leaving out repetitions loses no proof

A kernel that leaves out repetitions drops a successor if its forefront is equivalent to an
equation on the way to it. Variants of an equation can be proved in the same number of
steps, so an equation that has come up again could have been proved from where it first
came up. A shortest proof therefore repeats nothing, and is found with and without
repetitions.

This takes room for the rewrites. Without it the search at a state ends with a violation, and
a variant of the state may be needed to get at what comes after it.
-/

namespace Equational

namespace Kernel

variable {k k₁ k₂ : Kernel} {e f : Equation} {n : Nat}

/-! ### Proofs without states -/

/-- So many rewrites lead from the equation to a trivial one. -/
def ProvesIn (k : Kernel) : Nat → Equation → Prop
  | 0, e => k.isTrivial e = true
  | n + 1, e => ∃ next ∈ k.expansions k.ctx e, k.ProvesIn n next

theorem isTrivial_of_isVariantOf (h : k.isTrivial e = true) (variant : f.IsVariantOf e) :
    k.isTrivial f = true := by
  have hrename : ∀ {e : Equation} (ρ : Nat → Nat), k.isTrivial e = true →
      k.isTrivial (e.rename ρ) = true := by
    intro e ρ h
    refine isTrivial_iff.2 ?_
    rcases isTrivial_iff.1 h with hsides | ⟨rule, hrule, σ, hσ⟩
    · exact .inl (congrArg (Term.rename ρ) hsides)
    · refine .inr ⟨rule, hrule, fun id => (σ id).rename ρ, ?_⟩
      have hbind : (rule.bind fun id => (σ id).rename ρ) = (rule.bind σ).rename ρ :=
        (rule.bind_bind σ _).symm
      rcases hσ with hσ | hσ
      · exact .inl (by rw [hbind, hσ])
      · exact .inr (by rw [hbind, hσ]; rfl)
  have htranspose : k.isTrivial e.transpose = true := by
    refine isTrivial_iff.2 ?_
    rcases isTrivial_iff.1 h with hsides | ⟨rule, hrule, σ, hσ⟩
    · exact .inl hsides.symm
    · exact .inr ⟨rule, hrule, σ, hσ.symm⟩
  obtain ⟨ρ, rfl | rfl⟩ := variant
  · exact hrename ρ h
  · exact hrename ρ htranspose

theorem ProvesIn.of_isVariantOf (bounded : k.IsBounded) (h : k.ProvesIn n e)
    (variant : f.IsVariantOf e) : k.ProvesIn n f := by
  induction n generalizing e f with
  | zero => exact isTrivial_of_isVariantOf h variant
  | succ n ih =>
    obtain ⟨next, hnext, hproves⟩ := h
    obtain ⟨next', hrewrites, hvariant⟩ :=
      ((mem_expansions bounded).1 hnext).exists_variant variant
    exact ⟨next', (mem_expansions bounded).2 hrewrites, ih hproves hvariant⟩

theorem provesIn_congr (hctx : k₁.ctx = k₂.ctx) (hrules : k₁.equations = k₂.equations)
    (hbound : k₁.bound = k₂.bound) : k₁.ProvesIn n e ↔ k₂.ProvesIn n e := by
  induction n generalizing e with
  | zero =>
    show k₁.isTrivial e = true ↔ k₂.isTrivial e = true
    rw [isTrivial_iff, isTrivial_iff, hrules]
  | succ n ih =>
    have hexpansions : k₁.expansions k₁.ctx e = k₂.expansions k₂.ctx e := by
      rw [expansions, expansions, hctx, hbound, hrules]
    simp only [ProvesIn, hexpansions, ih]

/-! ### Proofs with states -/

/-- The numbers of steps in which a trivial forefront can be reached. -/
def proofLengths (k : Kernel) (root : ProofState) : Set Nat :=
  {n | ∃ s, k.Chain root n s ∧ k.isTrivial s.forefront = true}

variable {root s : ProofState}

theorem Chain.provesIn (bounded : k.IsBounded) (hctx : root.ctx = k.ctx) (chain : k.Chain root n s)
    {m : Nat} (h : k.ProvesIn m s.forefront) : k.ProvesIn (n + m) root.forefront := by
  induction chain generalizing m with
  | refl => rwa [Nat.zero_add]
  | @step n t u chain next ih =>
    have hmem := (mem_expected.1 (next.expected bounded)).1
    rw [chain.ctx hctx] at hmem
    have hrest : k.ProvesIn (m + 1) t.forefront := ⟨u.forefront, hmem, h⟩
    rw [Nat.add_assoc, Nat.add_comm 1]
    exact ih hrest

/-- Up to its end, a shortest proof can be followed by successors, whether or not repetitions are
left out: an equation that came up before could have been proved from there. -/
theorem exists_chain_of_isLeast (homed : k.IsHomed) (hctx : root.ctx = k.ctx)
    (hroot : root.path = [root.forefront]) (room : k.HasRoom root.forefront)
    (least : IsLeast {m | k.ProvesIn m root.forefront} n)
    {i : Nat} (hi : i ≤ n) :
    ∃ s, k.Chain root i s ∧ k.ProvesIn (n - i) s.forefront ∧
      ∀ p ∈ s.path, ∃ j ≤ i, ∀ m, k.ProvesIn m p → k.ProvesIn (j + m) root.forefront := by
  induction i with
  | zero =>
    refine ⟨root, .refl, least.1, fun p hp => ⟨0, Nat.le_refl 0, fun m hm => ?_⟩⟩
    rw [hroot, List.mem_singleton] at hp
    rwa [Nat.zero_add, ← hp]
  | succ i ih =>
    obtain ⟨s, chain, hproves, hpath⟩ := ih (Nat.le_of_succ_le hi)
    have hsctx := chain.ctx hctx
    rw [show n - i = (n - (i + 1)) + 1 by omega] at hproves
    obtain ⟨next, hmem, hproves⟩ := hproves
    have hnew : next.repeats s.path = false := by
      rw [← Bool.not_eq_true]
      intro hrepeats
      obtain ⟨p, hp, hequivalent⟩ := List.any_eq_true.1 hrepeats
      obtain ⟨j, hj, hoffset⟩ := hpath p hp
      have hshort := least.2
        (hoffset _ (hproves.of_isVariantOf homed.bounded
          (Equation.isVariantOf_of_equivalent hequivalent)))
      omega
    have hexpected : next ∈ k.expected s := mem_expected.2 ⟨hsctx.symm ▸ hmem, fun _ => hnew⟩
    obtain ⟨t, hnext, rfl⟩ :=
      exists_successor homed hsctx (room.chain homed.bounded chain) hexpected
    have hchain : k.Chain root (i + 1) t := chain.step hnext
    refine ⟨t, hchain, hproves, fun p hp => ?_⟩
    rw [hnext.isParent.path, List.mem_append, List.mem_singleton] at hp
    rcases hp with hp | rfl
    · obtain ⟨j, hj, hoffset⟩ := hpath p hp
      exact ⟨j, by omega, hoffset⟩
    · exact ⟨i + 1, Nat.le_refl _, fun m hm => hchain.provesIn homed.bounded hctx hm⟩

theorem provesIn_of_mem_proofLengths (bounded : k.IsBounded) (hctx : root.ctx = k.ctx)
    (h : n ∈ k.proofLengths root) : k.ProvesIn n root.forefront := by
  obtain ⟨s, chain, htrivial⟩ := h
  exact chain.provesIn bounded hctx (show k.ProvesIn 0 s.forefront from htrivial)

theorem mem_proofLengths_of_isLeast (homed : k.IsHomed) (hctx : root.ctx = k.ctx)
    (hroot : root.path = [root.forefront]) (room : k.HasRoom root.forefront)
    (least : IsLeast {m | k.ProvesIn m root.forefront} n) :
    n ∈ k.proofLengths root := by
  obtain ⟨s, chain, hproves, _⟩ :=
    exists_chain_of_isLeast homed hctx hroot room least (Nat.le_refl n)
  rw [Nat.sub_self] at hproves
  exact ⟨s, chain, hproves⟩

open Classical in
theorem exists_isLeast_provesIn (h : k.ProvesIn n e) : ∃ m, IsLeast {m | k.ProvesIn m e} m :=
  ⟨Nat.find ⟨n, h⟩, Nat.find_spec ⟨n, h⟩, fun _ hm => Nat.find_min' ⟨n, h⟩ hm⟩

/-- The length of a shortest proof by successors is that of a shortest proof by rewriting. -/
theorem isLeast_proofLengths (homed : k.IsHomed) (hctx : root.ctx = k.ctx)
    (hroot : root.path = [root.forefront]) (room : k.HasRoom root.forefront) :
    IsLeast (k.proofLengths root) n ↔ IsLeast {m | k.ProvesIn m root.forefront} n := by
  constructor
  · intro least
    obtain ⟨m, hm⟩ :=
      exists_isLeast_provesIn (provesIn_of_mem_proofLengths homed.bounded hctx least.1)
    have hle := least.2 (mem_proofLengths_of_isLeast homed hctx hroot room hm)
    have hge := hm.2 (provesIn_of_mem_proofLengths homed.bounded hctx least.1)
    obtain rfl : m = n := Nat.le_antisymm hge hle
    exact hm
  · intro least
    refine ⟨mem_proofLengths_of_isLeast homed hctx hroot room least, fun m hm => ?_⟩
    exact least.2 (provesIn_of_mem_proofLengths homed.bounded hctx hm)

theorem proofLengths_nonempty (homed : k.IsHomed) (hctx : root.ctx = k.ctx)
    (hroot : root.path = [root.forefront]) (room : k.HasRoom root.forefront) :
    (k.proofLengths root).Nonempty ↔ ∃ n, k.ProvesIn n root.forefront := by
  constructor
  · rintro ⟨n, hn⟩
    exact ⟨n, provesIn_of_mem_proofLengths homed.bounded hctx hn⟩
  · rintro ⟨n, hn⟩
    obtain ⟨m, hm⟩ := exists_isLeast_provesIn hn
    exact ⟨m, mem_proofLengths_of_isLeast homed hctx hroot room hm⟩

/-- **Leaving out repetitions loses no proof.** Two kernels with the same context and the same rules
have proofs of the same targets, and shortest proofs of the same length, whatever their options
are: one of them may leave out repetitions, or make random choices, and the other one not. There has
to be room for the rewrites of the target. -/
theorem isLeast_proofLengths_iff {root₁ root₂ : ProofState} {target : Statement}
    (built₁ : k₁.Built) (built₂ : k₂.Built) (hctx : k₁.ctx = k₂.ctx)
    (hrules : k₁.equations = k₂.equations) (room : k₁.HasRoom target.equation)
    (begins₁ : k₁.Begins target root₁) (begins₂ : k₂.Begins target root₂) :
    (∀ n, IsLeast (k₁.proofLengths root₁) n ↔ IsLeast (k₂.proofLengths root₂) n) ∧
      ((k₁.proofLengths root₁).Nonempty ↔ (k₂.proofLengths root₂).Nonempty) := by
  obtain ⟨hctx₁, hfront₁, hroot₁, _⟩ := begins₁.start
  obtain ⟨hctx₂, hfront₂, hroot₂, _⟩ := begins₂.start
  have hbound := built₁.kept.bound_congr built₂.kept hrules
  have room₁ : k₁.HasRoom root₁.forefront := hfront₁.symm ▸ room
  have room₂ : k₂.HasRoom root₂.forefront := hfront₂.symm ▸ room.congr hrules hbound
  constructor
  · intro n
    rw [isLeast_proofLengths built₁.homed hctx₁ hroot₁ room₁,
      isLeast_proofLengths built₂.homed hctx₂ hroot₂ room₂, hfront₁, hfront₂]
    simp only [provesIn_congr hctx hrules hbound]
  · rw [proofLengths_nonempty built₁.homed hctx₁ hroot₁ room₁,
      proofLengths_nonempty built₂.homed hctx₂ hroot₂ room₂, hfront₁, hfront₂]
    simp only [provesIn_congr hctx hrules hbound]

/-- One step is the shortest proof that a fourfold involution changes nothing, with repetitions and
hence without them. -/
theorem isLeast_proofLengths_involution :
    ∃ root₁ root₂, (involution { noRepeats := true }).Begins .fourfold root₁ ∧
      (involution {}).Begins .fourfold root₂ ∧
      IsLeast ((involution {}).proofLengths root₂) 1 ∧
      IsLeast ((involution { noRepeats := true }).proofLengths root₁) 1 := by
  obtain ⟨root₁, _, hbegins₁, _⟩ := exists_chain_involution { noRepeats := true }
  obtain ⟨root₂, s, hbegins₂, hchain, hroot, htrivial⟩ := exists_chain_involution {}
  have hleast : IsLeast ((involution {}).proofLengths root₂) 1 := by
    refine ⟨⟨s, hchain, htrivial⟩, ?_⟩
    rintro n ⟨t, htchain, httrivial⟩
    cases htchain with
    | refl => simp [hroot] at httrivial
    | step _ _ => omega
  refine ⟨root₁, root₂, hbegins₁, hbegins₂, hleast, ?_⟩
  exact ((isLeast_proofLengths_iff (built_involution { noRepeats := true }) (built_involution {})
    rfl rfl (by decide +kernel) hbegins₁ hbegins₂).1 1).2 hleast

end Kernel

/-! ### A proof that is lost where there is no room -/

namespace Cursor

/-- The state that the cursor stands on after so many moves, each from the same source. -/
def nth (source : Source) : Nat → Cursor → Option ProofState
  | 0, c => c.get.toOption
  | n + 1, c => nth source n ((advance.runOn c).run source).1.2

theorem gives_of_nth {rules : List Rule} {source : Source} (fixed : source.rules = rules) {n : Nat}
    {c : Cursor} {s : ProofState} (h : c.nth source n = some s) : c.Gives rules s := by
  induction n generalizing c with
  | zero => exact .now (toOption_eq_some.1 h)
  | succ n ih => exact .later fixed rfl (ih h)

end Cursor

/-- Each of two operations is the other one with its arguments crossed. -/
def Context.crossing : Context :=
  { name := "crossing"
    signature := ⟨[⟨"p", 2⟩, ⟨"q", 2⟩, ⟨"k", 3⟩]⟩
    axioms := ["p(x, y) = q(y, x)", "k(z, y, x) = p(x, y)", "p(x, y) = p(y, x)"]
    label := 0 }

/-- The two operations are equal, said of the last two variables. -/
def Statement.crossed : Statement :=
  .ofEquation .crossing ⟨.app 0 [.var 18446744073709551614, .var 18446744073709551615],
    .app 1 [.var 18446744073709551614, .var 18446744073709551615]⟩

namespace Kernel

def crossing (options : KernelOptions) : Kernel :=
  let axioms := [⟨.app 0 [.var 0, .var 1], .app 1 [.var 1, .var 0]⟩,
    ⟨.app 2 [.var 0, .var 1, .var 2], .app 0 [.var 2, .var 1]⟩,
    ⟨.app 0 [.var 0, .var 1], .app 0 [.var 1, .var 0]⟩].map (Statement.ofEquation .crossing)
  { ctx := .crossing, options, axioms, rules := axioms.map .ofStatement, bound := 3,
    rng := ⟨options.seed⟩ }

theorem built_crossing (options : KernelOptions) : (crossing options).Built :=
  .read (read_eq_ok options (by decide +kernel) (by decide +kernel) (by decide +kernel))

/-- Opens a cursor over the successors, moves it on so many times and takes the state it stands on,
and so on from there. -/
def follow (k : Kernel) : List Nat → ProofState → Option ProofState
  | [], s => some s
  | n :: ns, s =>
    (((k.cursor s).runOn k.source).1.toOption.bind (Cursor.nth k.source n)).bind (k.follow ns)

variable {k : Kernel} {root s t : ProofState} {options : KernelOptions}

theorem Chain.follow {ns : List Nat} {n : Nat} (chain : k.Chain root n s)
    (h : k.follow ns s = some t) : k.Chain root (n + ns.length) t := by
  induction ns generalizing n s with
  | nil =>
    obtain rfl := Option.some.inj h
    exact chain
  | cons i ns ih =>
    obtain ⟨u, hu, hrest⟩ := Option.bind_eq_some_iff.1 h
    obtain ⟨cursor, hcursor, hnth⟩ := Option.bind_eq_some_iff.1 hu
    have hnext : k.IsSuccessor s u := ⟨k.source, cursor, _, rfl,
      Prod.ext (toOption_eq_some.1 hcursor) rfl, Cursor.gives_of_nth rfl hnth⟩
    rw [List.length_cons, Nat.add_comm ns.length, ← Nat.add_assoc]
    exact ih (chain.step hnext) hrest

/-- Crossed on both sides, the equation comes up with its sides exchanged. -/
theorem exists_chain_crossing :
    ∃ root s, (crossing {}).Begins .crossed root ∧ (crossing {}).Chain root 3 s ∧
      (crossing {}).isTrivial s.forefront = true := by
  have hfollow : (((((crossing {}).prove .crossed).runOn {}).1.toOption.bind
      ((crossing {}).follow [0, 1, 0])).map fun s => (crossing {}).isTrivial s.forefront) =
        some true := by
    decide +kernel
  obtain ⟨s, hs, htrivial⟩ := Option.map_eq_some_iff.1 hfollow
  obtain ⟨root, hroot, hfollow⟩ := Option.bind_eq_some_iff.1 hs
  exact ⟨root, s, ⟨{}, _, Prod.ext (toOption_eq_some.1 hroot) rfl⟩, Chain.refl.follow hfollow,
    htrivial⟩

/-- With the left side crossed, both sides are the same operation. -/
def crossedOnce : Equation :=
  ⟨.app 1 [.var 18446744073709551615, .var 18446744073709551614],
    .app 1 [.var 18446744073709551614, .var 18446744073709551615]⟩

/-- What the rewrites by a rule at a site of an equation lead to, in the context of crossings. -/
def crossings (e : Equation) (site : Site) (rule : Rule) : List Equation :=
  (rule.sentence.rewrites .crossing site.occurrence.term).flatMap fun r =>
    (Candidate.choices (Candidate.listed e []) r.unbound).map fun choice =>
      choice.foldl (fun e entry => e.assign entry.1 entry.2.term) (e.replaceAt site r.replacement)

/-- What comes of a rule at a site, if the equation need not be moved. -/
theorem lasts_byRule_crossing {x : Expansion}
    (expands : (crossing options).Expands s x) (hctx : s.ctx = .crossing)
    (habove : s.forefront.above 3 = s.forefront) (site : Site) (number : Nat) :
    (x.byRule site number).Lasts (crossing options).rules fun supply =>
      supply.Yields (crossing options).rules True fun t => ∃ rule,
        (crossing options).rules[number]? = some rule ∧
          t.forefront ∈ crossings s.forefront site rule := by
  obtain ⟨rfl, hworking, hcands, -⟩ := expands
  have hequation : x.working.equation = x.state.forefront := hworking.trans habove
  refine (x.lasts_byRule site number).mono fun supply hsupply => hsupply.mono ?_
  rintro t ⟨⟨rule, hrule, r, hr, ht⟩, -⟩
  refine ⟨rule, hrule, List.mem_flatMap.2 ⟨r, hctx ▸ hr, ?_⟩⟩
  rw [Expansion.afterRewrite, hcands, hequation, hctx] at ht
  exact ht

/-- The root of the left side of the target. -/
def crossedSite : Site := ⟨.lhs, [], Statement.crossed.equation.lhs⟩

theorem above_crossed (begins : (crossing options).Begins .crossed root) :
    root.forefront.above 3 = root.forefront := by
  rw [begins.start.2.1]
  decide +kernel

/-- The second axiom opens its first variable, which is too far from those of the target. -/
theorem lasts_byRule_crossed {x : Expansion} (begins : (crossing options).Begins .crossed root)
    (expands : (crossing options).Expands root x) :
    (x.byRule crossedSite 1).Lasts (crossing options).rules fun _ => False := by
  obtain ⟨hctx, hfront, -⟩ := begins.start
  have hequation : x.working.equation = Statement.crossed.equation :=
    expands.working.trans ((above_crossed begins).trans hfront)
  let r : Rewrite := ⟨.crossing,
    .app 2 [.var 0, .var 18446744073709551615, .var 18446744073709551614], {}, [0]⟩
  have hrewrites : (crossing {}).rules[1].sentence.rewrites x.state.ctx
      crossedSite.occurrence.term =
      [r] := by
    rw [expands.state, hctx]
    rfl
  refine x.lasts_byRule_false rfl hrewrites (x.lasts_assignments_false ?_ fun value l' hl' => ?_)
  · rw [expands.candidates, hequation]
    exact List.cons_ne_nil _ _
  · obtain ⟨_, hcollect, -⟩ := bind_eq_ok.1 hl'
    rw [Line.equation_replaceAt, hequation] at hcollect
    cases hcollect

/-- What comes after the second axiom is not found. -/
theorem forefront_of_isSuccessor_crossed (ordered : options.randomised = false)
    (begins : (crossing options).Begins .crossed root)
    (next : (crossing options).IsSuccessor root t) : t.forefront = crossedOnce := by
  obtain ⟨hctx, hfront, -⟩ := begins.start
  have hsite : ∀ x, (crossing options).Expands root x →
      (x.atSite crossedSite).Lasts (crossing options).rules fun supply =>
        supply.Yields (crossing options).rules False fun t => t.forefront = crossedOnce := by
    intro x expands
    refine Draws.meets_rules.lasts.bind fun known hknown => ?_
    subst hknown
    rw [Expansion.chooseRule, expands.randomised, if_neg (by simp [crossing, ordered])]
    refine Supply.lasts_scan_until [0] 1 [2] ?_
      ((lasts_byRule_crossed begins expands).mono fun _ h => h.elim)
    intro number hnumber
    obtain rfl := List.mem_singleton.1 hnumber
    refine (lasts_byRule_crossing expands hctx (above_crossed begins) crossedSite 0).mono
      fun supply hsupply => hsupply.mono ?_
    rintro t ⟨rule, ⟨⟩, ht⟩
    rw [hfront] at ht
    have hall : ∀ e ∈ crossings Statement.crossed.equation crossedSite (crossing {}).rules[0],
        e = crossedOnce := by decide +kernel
    exact hall _ ht
  have hsuccessors : ∀ x, (crossing options).Expands root x →
      x.successors.Lasts (crossing options).rules fun supply =>
        supply.Yields (crossing options).rules False fun t => t.forefront = crossedOnce := by
    intro x expands
    rw [Expansion.successors, expands.working.trans ((above_crossed begins).trans hfront)]
    exact Supply.lasts_scan_until [] crossedSite _ (by simp) (hsite x expands)
  exact (next.of_lasts (lasts_successors_from hsuccessors)).1

/-- What comes next is the target again, up to the names of its variables and the order of its
sides. -/
theorem not_isSuccessor_crossedOnce {s : ProofState} (hctx : s.ctx = .crossing)
    (hpath : s.path = [Statement.crossed.equation, crossedOnce])
    (hfront : s.forefront = crossedOnce) :
    ¬(crossing { noRepeats := true }).IsSuccessor s t := by
  intro next
  have habove : s.forefront.above 3 = s.forefront := by
    rw [hfront]
    decide +kernel
  have hrepeats : ∀ site ∈ crossedOnce.sites, ∀ rule ∈ (crossing { noRepeats := true }).rules,
      ∀ e ∈ crossings crossedOnce site rule,
        e.repeats [Statement.crossed.equation, crossedOnce] = true := by
    decide +kernel
  have hyields : ((crossing { noRepeats := true }).successors s).Lasts _ fun supply =>
      supply.Yields _ True fun t => t.forefront.repeats s.path = true ∧ _ :=
    lasts_successors_of fun x hx site hsite number =>
      (lasts_byRule_crossing hx hctx habove site number).mono fun supply hsupply =>
        hsupply.mono <| by
        rintro t ⟨rule, hrule, ht⟩
        rw [hx.working.trans habove, hfront] at hsite
        rw [hfront] at ht
        rw [hpath]
        exact hrepeats site hsite rule (List.mem_of_getElem? hrule) _ ht
  obtain ⟨hrepeated, hnew⟩ := next.of_lasts hyields
  rw [hnew rfl] at hrepeated
  cases hrepeated

/-- **Where there is no room, a proof may be lost.** The third axiom proves the target in three
steps, but if repetitions are left out then nothing is left after the first one. -/
theorem isLeast_proofLengths_not_crossing :
    (crossing {}).Built ∧ (crossing { noRepeats := true }).Built ∧
    ∃ root₁ root₂, (crossing {}).Begins .crossed root₁ ∧
      (crossing { noRepeats := true }).Begins .crossed root₂ ∧
      ((crossing {}).proofLengths root₁).Nonempty ∧
      ¬((crossing { noRepeats := true }).proofLengths root₂).Nonempty := by
  obtain ⟨root₁, s, hbegins₁, hchain, htrivial⟩ := exists_chain_crossing
  have hbegins : ∃ root, (crossing { noRepeats := true }).Begins .crossed root := ⟨_, {}, _, rfl⟩
  obtain ⟨root₂, hbegins₂⟩ := hbegins
  refine ⟨built_crossing {}, built_crossing { noRepeats := true }, root₁, root₂, hbegins₁, hbegins₂,
    ⟨3, s, hchain, htrivial⟩, ?_⟩
  obtain ⟨hctx, hfront, hpath, -⟩ := hbegins₂.start
  have hreached : ∀ {n t}, (crossing { noRepeats := true }).Chain root₂ n t → t = root₂ ∨
      t.path = [Statement.crossed.equation, crossedOnce] ∧ t.forefront = crossedOnce := by
    intro n t chain
    induction chain with
    | refl => exact .inl rfl
    | @step n t u chain next ih =>
      rcases ih with rfl | ⟨htpath, htfront⟩
      · have hu := forefront_of_isSuccessor_crossed rfl hbegins₂ next
        refine .inr ⟨?_, hu⟩
        rw [next.isParent.path, hpath, hfront, hu]
        rfl
      · exact absurd next (not_isSuccessor_crossedOnce (chain.ctx hctx) htpath htfront)
  rintro ⟨n, t, chain, htrivial⟩
  have hnot : ∀ e ∈ [Statement.crossed.equation, crossedOnce],
      (crossing { noRepeats := true }).isTrivial e = false := by
    decide +kernel
  have hmem : t.forefront ∈ [Statement.crossed.equation, crossedOnce] := by
    rcases hreached chain with rfl | ⟨-, htfront⟩
    · exact List.mem_cons.2 (.inl hfront)
    · exact List.mem_cons.2 (.inr (List.mem_singleton.2 htfront))
  rw [hnot _ hmem] at htrivial
  cases htrivial

end Kernel

end Equational
