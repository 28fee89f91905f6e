import Equational.Proofs.Lasting
import Equational.Proofs.StoredRewriting
import Mathlib.Data.List.Forall2

/-!
# Which rules a proof has used

A proof state keeps the equations of its chain, and not the rules that led from one to the
next. How often a rule was used is therefore read off the chain: a step counts for a rule if
one side of the rule has an instance before the step and the other side has one after it. This
may count steps that the rule did not make, but it misses none that it made.

To say so, chains are followed together with the numbers of the rules that made their steps
(`Kernel.ChainBy`). Every chain can be followed in this way (`Kernel.Chain.exists_by`), and each
step that a rule made counts for it (`Kernel.IsSuccessorBy.countsFor`).
-/

namespace Equational

/-! ### Instances -/

namespace Equation

variable {e : Equation} {pattern : Term}

/-- A subterm of one of the sides is an instance of the pattern. -/
def Contains (e : Equation) (pattern : Term) : Prop :=
  ∃ site ∈ e.sites, ∃ σ, pattern.bind σ = site.occurrence.term

/-- The premise contains an instance of one side of the rule, and the conclusion one of the other
side. -/
def Joins (rule premise conclusion : Equation) : Prop :=
  (premise.Contains rule.lhs ∧ conclusion.Contains rule.rhs) ∨
    (premise.Contains rule.rhs ∧ conclusion.Contains rule.lhs)

theorem hasInstance_iff : e.hasInstance pattern = true ↔ e.Contains pattern := by
  simp only [hasInstance, Contains, List.any_eq_true, Term.match?_isSome_iff]

theorem mayLead_iff {rule premise conclusion : Equation} :
    rule.mayLead premise conclusion = true ↔ rule.Joins premise conclusion := by
  simp only [mayLead, Joins, Bool.or_eq_true, Bool.and_eq_true, hasInstance_iff]

theorem Contains.bind (h : e.Contains pattern) (f : Nat → Term) :
    (e.bind f).Contains pattern := by
  obtain ⟨site, here, σ, found⟩ := h
  refine ⟨site.bind f, bind_mem_sites f here, fun id => (σ id).bind f, ?_⟩
  show _ = site.occurrence.term.bind f
  rw [← Term.bind_bind, found]

theorem Contains.of_above {bound : Nat} (h : (e.above bound).Contains pattern) :
    e.Contains pattern := by
  obtain ⟨n, hn⟩ := e.above_eq_shift bound
  have hback : (e.above bound).bind (fun id => .var (id - n)) = e := by
    rw [hn, shift, Equation.bind, Term.shift_bind_sub, Term.shift_bind_sub]
  rw [← hback]
  exact h.bind _

theorem contains_replaceAt {site : Site} (here : site ∈ e.sites) (pattern : Term)
    (σ : Nat → Term) : (e.replaceAt site (pattern.bind σ)).Contains pattern := by
  have hat := (mem_sites.1 here).replaceAt_self (pattern.bind σ)
  obtain ⟨side, path, t⟩ := site
  refine ⟨⟨side, path, pattern.bind σ⟩, ?_, σ, rfl⟩
  rw [mem_sites]
  cases side with
  | lhs => exact hat
  | rhs => exact hat

/-- A rule joins what it rewrites with what comes out. -/
theorem Rewrites.joins {rule next : Equation} {bound : Nat} {constants : List Nat}
    (h : (e.above bound).Rewrites [rule] constants next) : rule.Joins e next := by
  obtain @⟨site, oriented, σ, _, here, known, applies⟩ := h
  obtain rfl := applies.result
  have hpremise : e.Contains oriented.lhs := Contains.of_above ⟨site, here, σ, applies.found⟩
  have hconclusion := contains_replaceAt here oriented.rhs σ
  rcases known with known | known
  · obtain rfl := List.mem_singleton.1 known
    exact .inl ⟨hpremise, hconclusion⟩
  · obtain rfl := List.mem_singleton.1 known
    exact .inr ⟨hpremise, hconclusion⟩

end Equation

/-- The step counts for the rule with the number. -/
def Kernel.CountsFor (k : Kernel) (number : Nat) (step : Equation × Equation) : Prop :=
  ∃ rule, k.equations[number]? = some rule ∧ rule.mayLead step.1 step.2 = true

/-! ### Steps by one rule -/

namespace Kernel

variable {k : Kernel} {s t root : ProofState} {number : Nat}

/-- The rule with the number leads from the first state to the second one: some supply of what
it makes of a site of the forefront comes to that state. -/
def IsSuccessorBy (k : Kernel) (number : Nat) (s next : ProofState) : Prop :=
  ∃ (x : Expansion) (site : Site) (source source' : Source) (supply : Supply ProofState),
    k.Expands s x ∧ site ∈ x.working.equation.sites ∧ source.rules = k.rules ∧
      (x.byRule site number).runOn source = (.ok supply, source') ∧
      (Cursor.mk .rewriting supply).Gives k.rules next

theorem IsSuccessor.exists_by (h : k.IsSuccessor s t) : ∃ number, k.IsSuccessorBy number s t := by
  have hby : ∀ x, k.Expands s x → ∀ site ∈ x.working.equation.sites, ∀ number,
      (x.byRule site number).Lasts k.rules fun supply =>
        supply.Yields k.rules True fun next => ∃ number, k.IsSuccessorBy number s next := by
    intro x hx site hsite number source fixed
    rcases hrun : (x.byRule site number).runOn source with ⟨answer, source'⟩
    obtain ⟨hfixed, hyields⟩ := (x.lasts_byRule site number).of_runOn fixed hrun
    refine ⟨hfixed, ?_⟩
    rintro supply rfl
    refine (hyields supply rfl).gives .rewriting fun next hnext => ?_
    exact ⟨number, x, site, source, source', supply, hx, hsite, fixed, hrun, hnext⟩
  exact (h.of_lasts (lasts_successors_of hby)).1

theorem IsSuccessorBy.rewrites (bounded : k.IsBounded) (h : k.IsSuccessorBy number s t) :
    ∃ rule, k.equations[number]? = some rule ∧
      (s.forefront.above k.bound).Rewrites [rule] s.ctx.signature.constants t.forefront := by
  obtain ⟨x, site, source, source', supply, ⟨rfl, hworking, hcands, -⟩, hsite, fixed, hrun,
    hgives⟩ := h
  have hyields := ((x.lasts_byRule site number).of_runOn fixed hrun).2 supply rfl
  obtain ⟨⟨rule, hrule, r, hr, hafter⟩, -⟩ := hgives.of_yields hyields
  have hbelow : ∀ id ∈ rule.equation.vars, id < k.bound :=
    bounded _ (List.mem_map_of_mem (List.mem_of_getElem? hrule))
  have habove : ∀ id ∈ x.working.equation.vars, k.bound ≤ id :=
    hworking ▸ fun id => Equation.le_of_mem_above
  have hfront := List.mem_flatMap.2 ⟨r, hr, hafter⟩
  rw [x.flatMap_afterRewrite_eq hcands habove hbelow hsite] at hfront
  refine ⟨rule.equation, by simp [equations, hrule], ?_⟩
  rw [← hworking, ← Equation.mem_expansions_iff (by simpa using hbelow) habove,
    Equation.expansions]
  refine List.mem_flatMap.2 ⟨site, hsite, ?_⟩
  rw [List.flatMap_singleton]
  exact hfront

theorem IsSuccessorBy.countsFor (bounded : k.IsBounded) (h : k.IsSuccessorBy number s t) :
    k.CountsFor number (s.forefront, t.forefront) := by
  obtain ⟨rule, hrule, hrewrites⟩ := h.rewrites bounded
  exact ⟨rule, hrule, Equation.mayLead_iff.2 hrewrites.joins⟩

/-! ### Chains with the rules that made them -/

/-- Successor steps lead from the first state to the second one, each by the rule with the number
at its place. -/
inductive ChainBy (k : Kernel) (s : ProofState) : List Nat → ProofState → Prop
  | refl : ChainBy k s [] s
  | step {numbers : List Nat} {t u : ProofState} {number : Nat} (chain : ChainBy k s numbers t)
      (next : k.IsSuccessor t u) (made : k.IsSuccessorBy number t u) :
      ChainBy k s (numbers ++ [number]) u

theorem Chain.exists_by {n : Nat} (h : k.Chain s n t) :
    ∃ numbers, numbers.length = n ∧ k.ChainBy s numbers t := by
  induction h with
  | refl => exact ⟨[], rfl, .refl⟩
  | step _ next ih =>
    obtain ⟨numbers, rfl, hchain⟩ := ih
    obtain ⟨number, hmade⟩ := next.exists_by
    exact ⟨numbers ++ [number], List.length_append, .step hchain next hmade⟩

theorem ChainBy.chain {numbers : List Nat} (h : k.ChainBy s numbers t) :
    k.Chain s numbers.length t := by
  induction h with
  | refl => exact .refl
  | step _ next _ ih =>
    rw [List.length_append]
    exact .step ih next

end Kernel

/-! ### The steps of a path -/

theorem zip_tail_concat {α : Type} (l : List α) (a b : α) :
    (l ++ [a, b]).zip (l ++ [a, b]).tail = (l ++ [a]).zip (l ++ [a]).tail ++ [(a, b)] := by
  induction l with
  | nil => rfl
  | cons x l ih =>
    cases l with
    | nil => rfl
    | cons y l => simpa using ih

/-- A successor has one step more, from the forefront before to its own. -/
theorem ProofState.IsParent.steps {s next : ProofState} (h : s.IsParent next) :
    next.path.zip next.path.tail =
      s.path.zip s.path.tail ++ [(s.forefront, next.forefront)] := by
  have hpath : s.path = s.earlier.reverse.map Stage.equation ++ [s.forefront] := by
    simp [ProofState.path, ProofState.stages, ProofState.forefront]
  rw [h.path, hpath, List.append_assoc]
  exact zip_tail_concat _ _ _

namespace Kernel

variable {k : Kernel} {s root : ProofState} {numbers : List Nat}

theorem ChainBy.steps (bounded : k.IsBounded) (hstart : root.path = [root.forefront])
    (h : k.ChainBy root numbers s) :
    List.Forall₂ k.CountsFor numbers (s.path.zip s.path.tail) := by
  induction h with
  | refl =>
    rw [hstart]
    exact .nil
  | step chain next made ih =>
    rw [next.isParent.steps]
    exact List.rel_append ih (.cons (made.countsFor bounded) .nil)

theorem count_le_countP {i : Nat} {rule : Equation} (hrule : k.equations[i]? = some rule)
    {steps : List (Equation × Equation)} (h : List.Forall₂ k.CountsFor numbers steps) :
    numbers.count i ≤ steps.countP fun step => rule.mayLead step.1 step.2 := by
  induction h with
  | nil => exact Nat.le_refl 0
  | @cons number step numbers steps hstep _ ih =>
    rw [List.count_cons, List.countP_cons]
    obtain ⟨rule', hrule', hleads⟩ := hstep
    by_cases heq : number = i
    · subst heq
      obtain rfl := Option.some.inj (hrule'.symm.trans hrule)
      rw [if_pos hleads]
      simp only [BEq.rfl, if_true]
      omega
    · rw [if_neg (by simpa using heq)]
      omega

/-- **Usage misses no use.** A step counts for a rule exactly if the rule joins its two equations.
Take a state that a proof comes to while the rules stay the same. Its chain was made by rules, one
for each step. In whatever way it was made, each step counts for the rule that made it. So for every
rule of the kernel the usage is at least the number of steps that it made. The search for instances
in what is stored finds this usage, if the variables of each rule are near to each other. -/
theorem usage_misses_no_use (built : k.Built) {target : Statement}
    (begins : k.Begins target root) :
    (∀ rule premise conclusion : Equation,
      rule.mayLead premise conclusion = true ↔ rule.Joins premise conclusion) ∧
    (∀ n s, k.Chain root n s → ∃ numbers, numbers.length = n ∧ k.ChainBy root numbers s) ∧
    (∀ numbers s, k.ChainBy root numbers s →
      List.Forall₂ k.CountsFor numbers (s.path.zip s.path.tail) ∧
      (s.usage k.equations).length = k.equations.length ∧
      ∀ i count, (s.usage k.equations)[i]? = some count → numbers.count i ≤ count) ∧
    ((∀ rule ∈ k.rules, DenseMap.IsNarrow rule.equation.vars) → ∀ s : ProofState,
      s.findUsage (k.rules.map Rule.statement) = .ok (s.usage k.equations)) := by
  obtain ⟨-, -, hstart, -⟩ := begins.start
  refine ⟨fun _ _ _ => Equation.mayLead_iff, fun n s => Chain.exists_by, fun numbers s chain => ?_,
    fun narrow s => ?_⟩
  · have hsteps := chain.steps built.homed.bounded hstart
    refine ⟨hsteps, by simp [ProofState.usage], fun i count hcount => ?_⟩
    simp only [ProofState.usage, List.getElem?_map, Option.map_eq_some_iff] at hcount
    obtain ⟨rule, hrule, rfl⟩ := hcount
    exact count_le_countP hrule hsteps
  · rw [equations_eq]
    refine s.findUsage_eq (List.forall_mem_map.2 fun rule hrule => ?_)
      (List.forall_mem_map.2 fun rule hrule => ?_)
    · exact rule.equation_eq ▸ built.denotes hrule
    · exact rule.equation_eq ▸ narrow rule hrule

/-- The step that takes a twofold involution off has used the axiom. -/
theorem usage_misses_no_use_involution :
    ∃ (root s : ProofState) (count : Nat), (involution {}).Begins .fourfold root ∧
      (involution {}).ChainBy root [0] s ∧
      s.usage [⟨.app 0 [.app 0 [.var 0]], .var 0⟩] = [count] ∧ 1 ≤ count := by
  obtain ⟨root, s, hbegins, hchain, -⟩ := exists_chain_involution {}
  obtain ⟨-, hmade, huses, -⟩ := usage_misses_no_use (built_involution {}) hbegins
  obtain ⟨numbers, hlength, hby⟩ := hmade 1 s hchain
  obtain ⟨number, rfl⟩ := List.length_eq_one_iff.1 hlength
  obtain ⟨hsteps, hlen, hcount⟩ := huses [number] s hby
  rw [equations_involution] at hlen hcount
  obtain ⟨count, husage⟩ := List.length_eq_one_iff.1 hlen
  -- the kernel has no other rule
  obtain rfl : number = 0 := by
    obtain ⟨_, _, ⟨rule, hrule, -⟩, -⟩ := List.forall₂_cons_left_iff.1 hsteps
    rw [equations_involution] at hrule
    simpa using (List.getElem?_eq_some_iff.1 hrule).1
  exact ⟨root, s, count, hbegins, hby, husage, hcount 0 count (by rw [husage]; rfl)⟩

end Kernel

end Equational
