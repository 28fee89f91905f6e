import Equational.Proofs.Implication
import Equational.Proofs.Repetition
import Equational.Proofs.StoredRewriting

/-!
# Equivalent equations expand alike

Equivalent equations are trivial together, and where repetitions are kept, what can be
reached from one of them by a step can be reached from the other one up to equivalence.
Neither the distance by which an equation is moved above the rules, nor the order of its
variables, nor its orientation makes a difference to this.

This takes room for the rewrites of both. A statement whose variables are far from those of the
rules may have no successors at all, since no cursor over them can be opened.
-/

namespace Equational

namespace Kernel

variable {k : Kernel} {s t p q : ProofState}

theorem isTrivial_congr {e f : Equation} (h : e.equivalent f = true) :
    k.isTrivial e = k.isTrivial f := by
  apply Bool.eq_iff_iff.2
  constructor
  · intro htrivial
    exact isTrivial_of_isVariantOf htrivial
      (Equation.isVariantOf_of_equivalent (Equation.equivalent_symm h))
  · intro htrivial
    exact isTrivial_of_isVariantOf htrivial (Equation.isVariantOf_of_equivalent h)

theorem expected_of_repeating (repeating : k.options.noRepeats = false) :
    k.expected s = k.expansions s.ctx s.forefront := by
  simp [expected, repeating]

/-- Each successor of a state is matched by a successor of every state with an equivalent
forefront for which there is room. -/
theorem IsSuccessor.exists_equivalent (homed : k.IsHomed)
    (repeating : k.options.noRepeats = false) (hs : s.ctx = k.ctx) (ht : t.ctx = k.ctx)
    (room : k.HasRoom t.forefront) (equivalent : s.forefront.equivalent t.forefront = true)
    (next : k.IsSuccessor s p) :
    ∃ q, k.IsSuccessor t q ∧ p.forefront.equivalent q.forefront = true := by
  have hmem := next.expected homed.bounded
  rw [expected_of_repeating repeating, hs] at hmem
  obtain ⟨e, hrewrites, hequivalent⟩ :=
    ((mem_expansions homed.bounded).1 hmem).exists_equivalent equivalent
  have he : e ∈ k.expected t := by
    rw [expected_of_repeating repeating, ht]
    exact (mem_expansions homed.bounded).2 hrewrites
  obtain ⟨q, hq, rfl⟩ := exists_successor homed ht room he
  exact ⟨q, hq, hequivalent⟩

/-- If there is room for both states then the comparison of the stored statements finds the two
successors equivalent. -/
theorem IsSuccessor.exists_equivalent_statement (homed : k.IsHomed)
    (repeating : k.options.noRepeats = false) (hs : s.ctx = k.ctx) (ht : t.ctx = k.ctx)
    (room : k.HasRoom s.forefront) (room' : k.HasRoom t.forefront)
    (equivalent : s.forefront.equivalent t.forefront = true) (next : k.IsSuccessor s p) :
    ∃ q, k.IsSuccessor t q ∧ p.statement.equivalent q.statement = .ok true := by
  obtain ⟨q, next', hequivalent⟩ :=
    next.exists_equivalent homed repeating hs ht room' equivalent
  have hnarrow := (room.successor homed.bounded next).narrow_vars
  have hnarrow' := (room'.successor homed.bounded next').narrow_vars
  refine ⟨q, next', ?_⟩
  rw [p.denotes_statement.equivalent_eq q.denotes_statement hnarrow hnarrow', hequivalent]

/-- **Expansion respects equivalence.** In a kernel that keeps repetitions, two equivalent
statements are trivial together, and whatever is found of them is right. It is found if the
variables of each rule are near to each other. If there is room for the rewrites of both statements
then proofs of both can be started, and wherever they come up as forefronts, each successor of the
one is matched by an equivalent successor of the other. -/
theorem successors_respect_equivalence (built : k.Built)
    (repeating : k.options.noRepeats = false) {a b : Statement} (ha : a.ctx.same k.ctx = true)
    (hb : b.ctx.same k.ctx = true) (acyclic : a.IsAcyclic) (acyclic' : b.IsAcyclic)
    (equivalent : a.equivalent b = .ok true) :
    (k.isTrivial a.equation = k.isTrivial b.equation ∧
      (∀ answer, k.findsTrivial a = .ok answer → answer = k.isTrivial a.equation) ∧
      (∀ answer, k.findsTrivial b = .ok answer → answer = k.isTrivial b.equation) ∧
      ((∀ rule ∈ k.rules, DenseMap.IsNarrow rule.equation.vars) →
        (∃ answer, k.findsTrivial a = .ok answer) ∧ ∃ answer, k.findsTrivial b = .ok answer)) ∧
    (k.HasRoom a.equation → k.HasRoom b.equation →
      (∃ s, k.Begins a s) ∧ (∃ t, k.Begins b t) ∧
      ∀ s t, k.Reaches s → k.Reaches t → s.forefront = a.equation → t.forefront = b.equation →
        (∀ p, k.IsSuccessor s p →
          ∃ q, k.IsSuccessor t q ∧ p.statement.equivalent q.statement = .ok true) ∧
        (∀ q, k.IsSuccessor t q →
          ∃ p, k.IsSuccessor s p ∧ q.statement.equivalent p.statement = .ok true)) := by
  have hequivalent : a.equation.equivalent b.equation = true :=
    (acyclic.denotes.of_equivalent acyclic'.denotes equivalent).symm
  have hrules : ∀ rule ∈ k.rules, rule.statement.Denotes rule.equation := fun _ => built.denotes
  refine ⟨⟨isTrivial_congr hequivalent, fun _ => acyclic.denotes.of_findsTrivial hrules,
    fun _ => acyclic'.denotes.of_findsTrivial hrules, fun narrow => ?_⟩, fun room room' => ?_⟩
  · exact ⟨⟨_, acyclic.denotes.findsTrivial_eq hrules narrow⟩,
      ⟨_, acyclic'.denotes.findsTrivial_eq hrules narrow⟩⟩
  · refine ⟨exists_begins ha room.narrow_vars, exists_begins hb room'.narrow_vars, ?_⟩
    intro s t hs ht hfront hfront'
    rw [← hfront] at hequivalent room
    rw [← hfront'] at hequivalent room'
    constructor
    · intro p next
      exact next.exists_equivalent_statement built.homed repeating hs.ctx ht.ctx room room'
        hequivalent
    · intro q next
      exact next.exists_equivalent_statement built.homed repeating ht.ctx hs.ctx room' room
        (Equation.equivalent_symm hequivalent)

end Kernel

/-- The same with another variable, from right to left. -/
def Statement.inverseTwiceBack : Statement :=
  .ofEquation .leftBlind ⟨.app 1 [.app 0 [.const 2, .var 5]], .app 1 [.app 1 [.var 5]]⟩

/-- The remote statement with the first variable. -/
def Statement.near : Statement := .ofEquation .leftBlind ⟨.app 1 [.var 0], .const 2⟩

namespace Kernel

/-- A step from the one is matched by a step from the other. -/
theorem successors_respect_equivalence_leftBlind :
    Statement.inverseTwice.equivalent .inverseTwiceBack = .ok true ∧
    ∃ s t p q, (leftBlind {}).Begins .inverseTwice s ∧ (leftBlind {}).Begins .inverseTwiceBack t ∧
      (leftBlind {}).IsSuccessor s p ∧ (leftBlind {}).IsSuccessor t q ∧
      p.statement.equivalent q.statement = .ok true := by
  have hequivalent : Statement.inverseTwice.equivalent .inverseTwiceBack = .ok true := by
    decide +kernel
  have hroom : (leftBlind {}).HasRoom Statement.inverseTwiceBack.equation :=
    (hasRoom_leftBlind_iff {}).2 (by decide +kernel)
  obtain ⟨s, p, hs, hchain, -⟩ := exists_chain_leftBlind {}
  obtain ⟨-, hsteps⟩ := successors_respect_equivalence (built_leftBlind {}) rfl
    (same_self _) (same_self _) (Statement.isAcyclic_ofEquation _ _)
    (Statement.isAcyclic_ofEquation _ _) hequivalent
  obtain ⟨-, ⟨t, ht⟩, hmatch⟩ := hsteps (hasRoom_inverseTwice {}) hroom
  obtain ⟨q, hq, hpq⟩ :=
    (hmatch s t hs.reaches ht.reaches hs.start.2.1 ht.start.2.1).1 p hchain.isSuccessor
  exact ⟨hequivalent, s, t, p, q, hs, ht, hchain.isSuccessor, hq, hpq⟩

/-- A step from the near statement is not matched by one from the remote statement. -/
theorem successors_respect_equivalence_not_remote :
    (leftBlind {}).Built ∧ Statement.near.equivalent .remote = .ok true ∧
    ∃ s t p, (leftBlind {}).Begins .near s ∧ (leftBlind {}).Begins .remote t ∧
      (leftBlind {}).IsSuccessor s p ∧ ∀ q, ¬(leftBlind {}).IsSuccessor t q := by
  have hroom : (leftBlind {}).HasRoom Statement.near.equation :=
    (hasRoom_leftBlind_iff {}).2 (by decide +kernel)
  obtain ⟨s, hs⟩ : ∃ s, (leftBlind {}).Begins .near s :=
    exists_begins (same_self _) hroom.narrow_vars
  obtain ⟨t, ht⟩ := exists_begins_remote {}
  have hmem := mem_expansions_leftBlind {} (e := Statement.near.equation)
    ⟨.app 1 [.var 2], .const 2⟩ ⟨.lhs, [], .app 1 [.var 2]⟩ (c := .const 2) (by decide +kernel)
    (by decide +kernel) rfl (by decide +kernel)
  obtain ⟨p, hchain, -⟩ := exists_first_step (built_leftBlind {}).homed hs hroom hmem
    (by decide +kernel)
  refine ⟨built_leftBlind {}, by decide +kernel, s, t, p, hs, ht, hchain.isSuccessor, ?_⟩
  rintro q ⟨source, cursor, source', fixed, run, -⟩
  exact ((lasts_cursor_remote ht.start.1 ht.start.2.1).of_runOn fixed run).2 cursor rfl

end Kernel

end Equational
