import Equational.Proofs.Matching
import Equational.Proofs.Occurrence
import Equational.Rewrite

/-!
# One rewrite, declared and listed

What one rewrite with a set of rules leads to is said twice. `Equation.Rewrites` is a
relation: some subterm is an instance of one side of a rule, and the same instance of the
other side takes its place, where a variable that the first side does not have stands for a
variable of the equation or for a constant. `Equation.expansions` is a list, in the order in
which a kernel without random choices finds them, and it speaks of instances without saying
how they are found.

The two agree if the equation has no variable in common with the rules
(`mem_expansions_iff`). The list leaves out the second use of a rule that has the result of
the first; the theorem says that nothing is lost by this.
-/

namespace Equational

/-! ### Both uses of a rule -/

open Classical in
/-- The substitution that turns the pattern into the term and leaves all other variables alone,
if there is one. -/
noncomputable def Term.solution? (pattern t : Term) : Option (Nat → Term) :=
  if h : ∃ σ, pattern.bind σ = t then
    some fun id => if id ∈ pattern.vars then h.choose id else .var id
  else none

namespace Equation

/-- The use of a rule from left to right on a term: the right side under the substitution that
turns the left side into the term, and the variables that occur on the right side only. -/
noncomputable def use? (rule : Equation) (t : Term) : Option (Term × List Nat) :=
  (rule.lhs.solution? t).map fun σ =>
    (rule.rhs.bind σ, rule.rhs.freeIds.keys.filter fun id => id ∉ rule.lhs.vars)

/-- The use from left to right, then the one from right to left unless its result is the same. -/
noncomputable def uses (rule : Equation) (t : Term) : List (Term × List Nat) :=
  (rule.use? t).toList ++
    (rule.transpose.use? t).toList.filter fun back => back.1 ∉ (rule.use? t).toList.map Prod.fst

end Equation

namespace Candidate

/-- All ways to choose a candidate for each of the variables, the choice for the first variable
changing last. -/
def choices (candidates : List Candidate) : List Nat → List (List (Nat × Candidate))
  | [] => [[]]
  | id :: ids => candidates.flatMap fun c =>
      (choices candidates ids).map fun rest => (id, c) :: rest

/-- The candidates for rewriting an equation: its variables in ascending order, then the
constants. -/
def listed (w : Equation) (constants : List Nat) : List Candidate :=
  w.freeIds.keys.map .free ++ constants.map .const

/-- The substitution that a choice stands for. -/
def image (choice : List (Nat × Candidate)) (id : Nat) : Term :=
  (choice.lookup id).elim (.var id) Candidate.term

end Candidate

namespace Equation

/-- The equation with its variables moved above the bound, if the least of them is below it. -/
def above (bound : Nat) (e : Equation) : Equation :=
  match e.freeIds.least? with
  | some least => if least < bound then e.shift (bound - least) else e
  | none => e

/-- All equations one rewrite away from an equation that has no variable in common with the
rules: for each site, each rule, each use of the rule there and each choice of candidates for
the variables that the use leaves open. -/
noncomputable def expansions (rules : List Equation) (constants : List Nat) (w : Equation) :
    List Equation :=
  w.sites.flatMap fun site =>
    rules.flatMap fun rule =>
      (rule.uses site.occurrence.term).flatMap fun use =>
        (Candidate.choices (Candidate.listed w constants) use.2).map fun choice =>
          w.replaceAt site (use.1.bind (Candidate.image choice))

/-- A rule is used from left to right at a site of the equation: the left side under `σ` is
there, and `σ` takes each variable that occurs on the right side only to a candidate. -/
structure Applies (rule : Equation) (candidates : List Candidate) (t u : Term)
    (σ : Nat → Term) : Prop where
  found : rule.lhs.bind σ = t
  chosen : ∀ id ∈ rule.rhs.vars, id ∉ rule.lhs.vars → ∃ c ∈ candidates, σ id = c.term
  result : rule.rhs.bind σ = u

/-- One rewrite leads from one equation to the other, by a rule in one of its orientations. -/
inductive Rewrites (rules : List Equation) (constants : List Nat) (w : Equation) : Equation → Prop
  | intro {site : Site} {rule : Equation} {σ : Nat → Term} {u : Term} (here : site ∈ w.sites)
      (known : rule ∈ rules ∨ rule.transpose ∈ rules)
      (applies : rule.Applies (Candidate.listed w constants) site.occurrence.term u σ) :
      Rewrites rules constants w (w.replaceAt site u)

end Equation

/-! ### Solutions -/

namespace Term

variable {pattern t : Term} {σ : Nat → Term}

theorem solution?_eq_none (h : pattern.solution? t = none) (σ : Nat → Term) :
    pattern.bind σ ≠ t := by
  unfold solution? at h
  split at h
  next hex => cases h
  next hno => exact fun hσ => hno ⟨σ, hσ⟩

theorem bind_of_solution? (h : pattern.solution? t = some σ) : pattern.bind σ = t := by
  unfold solution? at h
  split at h
  next hex =>
    obtain rfl := Option.some.inj h
    refine (bind_congr fun id hid => ?_).trans hex.choose_spec
    rw [if_pos hid]
  next hno => cases h

theorem solution?_of_not_mem (h : pattern.solution? t = some σ) {id : Nat}
    (hid : id ∉ pattern.vars) : σ id = .var id := by
  unfold solution? at h
  split at h
  next hex =>
    obtain rfl := Option.some.inj h
    exact if_neg hid
  next hno => cases h

/-- There is a solution as soon as there is a substitution, and it agrees with it. -/
theorem exists_solution? {τ : Nat → Term} (h : pattern.bind τ = t) :
    ∃ σ, pattern.solution? t = some σ ∧ ∀ id ∈ pattern.vars, σ id = τ id := by
  cases hsol : pattern.solution? t with
  | none => exact absurd h (solution?_eq_none hsol τ)
  | some σ => exact ⟨σ, rfl, bind_eq_bind_iff.1 ((bind_of_solution? hsol).trans h.symm)⟩

theorem solution?_eq_match? (pattern t : Term) :
    pattern.solution? t = (pattern.match? t).map Substitution.image := by
  cases hmatch : pattern.match? t with
  | none =>
    cases hsol : pattern.solution? t with
    | none => rfl
    | some σ => exact absurd (bind_of_solution? hsol) (bind_ne_of_match?_eq_none hmatch σ)
  | some s =>
    obtain ⟨σ, hsol, hagree⟩ := exists_solution? (bind_image_of_match? hmatch)
    rw [hsol, Option.map_some, Option.some.injEq]
    funext id
    by_cases hid : id ∈ pattern.vars
    · exact hagree id hid
    · have hunbound : s.get? id = none := by
        have hout : ¬s.contains id = true := fun h => hid ((contains_of_match? hmatch id).1 h)
        simpa [IdMap.contains] using hout
      rw [solution?_of_not_mem hsol hid, Substitution.image, hunbound]
      rfl

end Term

namespace Equation

theorem rewriteWith_eq_use? (s : Sentence) (rule : Equation) (backing : Backing) (ctx : Context)
    (t : Term) :
    (s.rewriteWith rule.lhs rule.rhs backing ctx t).map (fun r => (r.replacement, r.unbound)) =
      rule.use? t := by
  rw [use?, Term.solution?_eq_match?, Sentence.rewriteWith]
  cases hmatch : rule.lhs.match? t with
  | none => rfl
  | some bound =>
    simp only [Option.map_some, Term.subst, Option.some.injEq, Prod.mk.injEq, true_and]
    refine List.filter_congr fun id _ => ?_
    rw [Bool.eq_iff_iff, Bool.not_eq_true', ← Bool.not_eq_true,
      Term.contains_of_match? hmatch, decide_eq_true_iff]

theorem rewrites_eq_uses (rule : Sentence) (ctx : Context) (t : Term) :
    (rule.rewrites ctx t).map (fun r => (r.replacement, r.unbound)) = rule.equation.uses t := by
  obtain ⟨rctx, ⟨⟨lhs, rhs⟩, left, right⟩⟩ := rule
  have hforth := rewriteWith_eq_use? ⟨rctx, ⟨⟨lhs, rhs⟩, left, right⟩⟩ ⟨lhs, rhs⟩ right ctx t
  have hback := rewriteWith_eq_use? ⟨rctx, ⟨⟨lhs, rhs⟩, left, right⟩⟩ ⟨rhs, lhs⟩ left ctx t
  simp only [Sentence.rewrites, Sentence.equation, uses, transpose, ← hforth, ← hback,
    List.map_append, Option.toList_map, List.map_map, List.filter_map]
  congr 2
  refine List.filter_congr fun r _ => ?_
  rw [Bool.eq_iff_iff]
  simp [Function.comp_def]

end Equation

/-! ### Choices -/

namespace Candidate

variable {candidates : List Candidate} {ids : List Nat} {choice : List (Nat × Candidate)}

theorem mem_choices :
    choice ∈ choices candidates ids ↔
      choice.map Prod.fst = ids ∧ ∀ entry ∈ choice, entry.2 ∈ candidates := by
  induction ids generalizing choice with
  | nil =>
    simp only [choices, List.mem_singleton, List.map_eq_nil_iff]
    constructor
    · rintro rfl
      simp
    · exact And.left
  | cons id ids ih =>
    simp only [choices, List.mem_flatMap, List.mem_map, ih]
    constructor
    · rintro ⟨c, hc, rest, ⟨hids, hmem⟩, rfl⟩
      refine ⟨by simp [hids], fun entry hentry => ?_⟩
      rcases List.mem_cons.1 hentry with rfl | hentry
      · exact hc
      · exact hmem entry hentry
    · rintro ⟨hids, hmem⟩
      cases choice with
      | nil => simp at hids
      | cons entry rest =>
        obtain ⟨rfl, rfl⟩ := List.cons.inj hids
        exact ⟨entry.2, hmem entry List.mem_cons_self, rest,
          ⟨rfl, fun e he => hmem e (List.mem_cons_of_mem _ he)⟩, rfl⟩

theorem image_cons (id : Nat) (c : Candidate) (rest : List (Nat × Candidate)) (i : Nat) :
    image ((id, c) :: rest) i = if i = id then c.term else image rest i := by
  rw [image, IdMap.lookup_entry]
  by_cases hi : i = id
  · rw [if_pos hi, if_pos hi]
    rfl
  · rw [if_neg hi, if_neg hi]
    rfl

theorem image_of_not_mem {id : Nat} (h : id ∉ choice.map Prod.fst) : image choice id = .var id := by
  induction choice with
  | nil => rfl
  | cons entry rest ih =>
    rw [List.map_cons, List.mem_cons, not_or] at h
    rw [image_cons, if_neg h.1]
    exact ih h.2

theorem image_of_mem (h : ∀ entry ∈ choice, entry.2 ∈ candidates) {id : Nat}
    (hid : id ∈ choice.map Prod.fst) : ∃ c ∈ candidates, image choice id = c.term := by
  induction choice with
  | nil => simp at hid
  | cons entry rest ih =>
    rw [image_cons]
    by_cases hi : id = entry.1
    · exact ⟨entry.2, h entry List.mem_cons_self, if_pos hi⟩
    · rw [if_neg hi]
      refine ih (fun e he => h e (List.mem_cons_of_mem _ he)) ?_
      rw [List.map_cons, List.mem_cons] at hid
      exact hid.resolve_left hi

theorem image_map (c : Nat → Candidate) {id : Nat} (hid : id ∈ ids) :
    image (ids.map fun i => (i, c i)) id = (c id).term := by
  induction ids with
  | nil => simp at hid
  | cons i ids ih =>
    rw [List.map_cons, image_cons]
    by_cases hi : id = i
    · rw [if_pos hi, hi]
    · rw [if_neg hi]
      exact ih ((List.mem_cons.1 hid).resolve_left hi)

theorem mem_listed {w : Equation} {constants : List Nat} {c : Candidate} :
    c ∈ listed w constants ↔
      (∃ id ∈ w.vars, c = .free id) ∨ ∃ symbol ∈ constants, c = .const symbol := by
  simp only [listed, List.mem_append, List.mem_map, IdMap.mem_keys, Equation.contains_freeIds,
    eq_comm (a := c)]

theorem mem_vars_term {w : Equation} {constants : List Nat} {c : Candidate}
    (hc : c ∈ listed w constants) {id : Nat} (hid : id ∈ c.term.vars) : id ∈ w.vars := by
  rcases mem_listed.1 hc with ⟨i, hi, rfl⟩ | ⟨symbol, _, rfl⟩
  · obtain rfl : id = i := by simpa [term] using hid
    exact hi
  · simp [term] at hid

end Candidate

/-! ### The list and the relation agree -/

namespace Equation

variable {rule w : Equation} {bound : Nat} {t replacement : Term} {unbound : List Nat}
  {candidates : List Candidate}

/-- What a use leaves open are the variables of the rule in the result: all other variables come
from the term. -/
theorem mem_unbound (hrule : ∀ id ∈ rule.vars, id < bound) (ht : ∀ id ∈ t.vars, bound ≤ id)
    (huse : rule.use? t = some (replacement, unbound)) (id : Nat) :
    id ∈ unbound ↔ id ∈ replacement.vars ∧ id < bound := by
  obtain ⟨σ, hsol, heq⟩ := Option.map_eq_some_iff.1 huse
  obtain ⟨rfl, rfl⟩ := Prod.mk.inj heq
  have hfound := Term.bind_of_solution? hsol
  rw [List.mem_filter, IdMap.mem_keys, Term.contains_freeIds, decide_eq_true_iff,
    Term.mem_vars_bind]
  constructor
  · rintro ⟨hrhs, hlhs⟩
    refine ⟨⟨id, hrhs, ?_⟩, hrule id (mem_vars.2 (.inr hrhs))⟩
    rw [Term.solution?_of_not_mem hsol hlhs]
    simp
  · rintro ⟨⟨i, hi, hid⟩, hlt⟩
    by_cases hlhs : i ∈ rule.lhs.vars
    · -- the image of a bound variable is a part of the term
      have hmem : id ∈ t.vars := by
        rw [← hfound, Term.mem_vars_bind]
        exact ⟨i, hlhs, hid⟩
      exact absurd (ht id hmem) (by omega)
    · rw [Term.solution?_of_not_mem hsol hlhs, Term.mem_vars_var] at hid
      subst hid
      exact ⟨hi, hlhs⟩

/-- The instances that choices give are those that any assignment of candidates to the variables
below the bound gives. So they depend on the result of the use only. -/
theorem exists_choice_iff (hunbound : ∀ id, id ∈ unbound ↔ id ∈ replacement.vars ∧ id < bound)
    {u : Term} :
    (∃ choice ∈ Candidate.choices candidates unbound,
        u = replacement.bind (Candidate.image choice)) ↔
      ∃ c : Nat → Candidate, (∀ id ∈ replacement.vars, id < bound → c id ∈ candidates) ∧
        u = replacement.bind fun id => if id < bound then (c id).term else .var id := by
  constructor
  · rintro ⟨choice, hchoice, rfl⟩
    obtain ⟨hids, hmem⟩ := Candidate.mem_choices.1 hchoice
    have hpick (id : Nat) : ∃ c : Candidate, id ∈ unbound →
        c ∈ candidates ∧ Candidate.image choice id = c.term := by
      by_cases hid : id ∈ unbound
      · obtain ⟨c, hc, himage⟩ := Candidate.image_of_mem hmem (hids ▸ hid)
        exact ⟨c, fun _ => ⟨hc, himage⟩⟩
      · exact ⟨.free 0, fun h => absurd h hid⟩
    refine ⟨fun id => (hpick id).choose, fun id hid hlt => ?_, ?_⟩
    · exact ((hpick id).choose_spec ((hunbound id).2 ⟨hid, hlt⟩)).1
    · refine Term.bind_congr fun id hid => ?_
      by_cases hlt : id < bound
      · rw [if_pos hlt]
        exact ((hpick id).choose_spec ((hunbound id).2 ⟨hid, hlt⟩)).2
      · rw [if_neg hlt]
        refine Candidate.image_of_not_mem fun hmem => hlt ?_
        exact ((hunbound id).1 (hids ▸ hmem)).2
  · rintro ⟨c, hc, rfl⟩
    refine ⟨unbound.map fun id => (id, c id),
      Candidate.mem_choices.2 ⟨by simp [Function.comp_def], ?_⟩, ?_⟩
    · intro entry hentry
      obtain ⟨id, hid, rfl⟩ := List.mem_map.1 hentry
      obtain ⟨hvars, hlt⟩ := (hunbound id).1 hid
      exact hc id hvars hlt
    · refine Term.bind_congr fun id hid => ?_
      by_cases hlt : id < bound
      · rw [if_pos hlt, Candidate.image_map c ((hunbound id).2 ⟨hid, hlt⟩)]
      · rw [if_neg hlt]
        refine (Candidate.image_of_not_mem fun hmem => hlt ?_).symm
        have hmem : id ∈ unbound := by simpa using hmem
        exact ((hunbound id).1 hmem).2

/-- Using the rule and then filling in the open variables is substituting once. -/
theorem bind_filled (hrule : ∀ id ∈ rule.vars, id < bound) (ht : ∀ id ∈ t.vars, bound ≤ id)
    {σ τ : Nat → Term} (hsol : rule.lhs.solution? t = some σ) (c : Nat → Candidate)
    (hbound : ∀ id ∈ rule.lhs.vars, τ id = σ id)
    (hopen : ∀ id ∈ rule.rhs.vars, id ∉ rule.lhs.vars → τ id = (c id).term) :
    (rule.rhs.bind σ).bind (fun id => if id < bound then (c id).term else .var id) =
      rule.rhs.bind τ := by
  rw [Term.bind_bind]
  refine Term.bind_congr fun id hid => ?_
  by_cases hlhs : id ∈ rule.lhs.vars
  · rw [hbound id hlhs]
    refine Term.bind_eq_self fun i hi => if_neg ?_
    have hmem : i ∈ t.vars := by
      rw [← Term.bind_of_solution? hsol, Term.mem_vars_bind]
      exact ⟨id, hlhs, hi⟩
    have hle := ht i hmem
    omega
  · rw [Term.solution?_of_not_mem hsol hlhs, Term.bind_var,
      if_pos (hrule id (mem_vars.2 (.inr hid))), hopen id hid hlhs]

theorem exists_applies_iff (hrule : ∀ id ∈ rule.vars, id < bound) (ht : ∀ id ∈ t.vars, bound ≤ id)
    (huse : rule.use? t = some (replacement, unbound)) {u : Term} :
    (∃ σ, rule.Applies candidates t u σ) ↔
      ∃ c : Nat → Candidate, (∀ id ∈ replacement.vars, id < bound → c id ∈ candidates) ∧
        u = replacement.bind fun id => if id < bound then (c id).term else .var id := by
  have hmem := mem_unbound hrule ht huse
  obtain ⟨σ, hsol, heq⟩ := Option.map_eq_some_iff.1 huse
  obtain ⟨rfl, rfl⟩ := Prod.mk.inj heq
  simp only [List.mem_filter, IdMap.mem_keys, Term.contains_freeIds, decide_eq_true_iff] at hmem
  constructor
  · rintro ⟨τ, hτ⟩
    have hagree : ∀ id ∈ rule.lhs.vars, τ id = σ id :=
      Term.bind_eq_bind_iff.1 (hτ.found.trans (Term.bind_of_solution? hsol).symm)
    have hpick (id : Nat) : ∃ c : Candidate, id ∈ rule.rhs.vars → id ∉ rule.lhs.vars →
        c ∈ candidates ∧ τ id = c.term := by
      by_cases hid : id ∈ rule.rhs.vars ∧ id ∉ rule.lhs.vars
      · obtain ⟨c, hc⟩ := hτ.chosen id hid.1 hid.2
        exact ⟨c, fun _ _ => hc⟩
      · exact ⟨.free 0, fun h h' => absurd ⟨h, h'⟩ hid⟩
    refine ⟨fun id => (hpick id).choose, fun id hid hlt => ?_, ?_⟩
    · obtain ⟨hrhs, hlhs⟩ := (hmem id).2 ⟨hid, hlt⟩
      exact ((hpick id).choose_spec hrhs hlhs).1
    · rw [bind_filled hrule ht hsol _ hagree fun id hrhs hlhs =>
        ((hpick id).choose_spec hrhs hlhs).2]
      exact hτ.result.symm
  · rintro ⟨c, hc, rfl⟩
    refine ⟨fun id => if id ∈ rule.lhs.vars then σ id else (c id).term, ?_, ?_, ?_⟩
    · rw [← Term.bind_of_solution? hsol]
      exact Term.bind_congr fun id hid => if_pos hid
    · intro id hrhs hlhs
      obtain ⟨hvars, hlt⟩ := (hmem id).1 ⟨hrhs, hlhs⟩
      exact ⟨c id, hc id hvars hlt, if_neg hlhs⟩
    · exact (bind_filled hrule ht hsol c (fun id hid => if_pos hid)
        fun id _ hlhs => if_neg hlhs).symm

theorem exists_use?_of_applies {u : Term} {σ : Nat → Term} (h : rule.Applies candidates t u σ) :
    ∃ use, rule.use? t = some use := by
  obtain ⟨τ, hsol, _⟩ := Term.exists_solution? h.found
  exact ⟨_, by rw [use?, hsol, Option.map_some]⟩

theorem mem_uses {use : Term × List Nat} :
    use ∈ rule.uses t ↔
      rule.use? t = some use ∨
        rule.transpose.use? t = some use ∧
          ∀ first, rule.use? t = some first → use.1 ≠ first.1 := by
  simp only [uses, List.mem_append, Option.mem_toList, List.mem_filter, List.mem_map,
    decide_eq_true_iff, not_exists, not_and]
  refine or_congr Iff.rfl (and_congr Iff.rfl ?_)
  constructor
  · intro h first hfirst heq
    exact h first hfirst heq.symm
  · intro h first hfirst heq
    exact h first hfirst heq.symm

/-- The listed uses of a rule with all choices are its uses in both orientations. The use that
was left out has the same result as the one before it, hence the same instances. -/
theorem exists_use_iff (hrule : ∀ id ∈ rule.vars, id < bound) (ht : ∀ id ∈ t.vars, bound ≤ id)
    {u : Term} :
    (∃ use ∈ rule.uses t, ∃ choice ∈ Candidate.choices candidates use.2,
        u = use.1.bind (Candidate.image choice)) ↔
      ∃ σ, rule.Applies candidates t u σ ∨ rule.transpose.Applies candidates t u σ := by
  have hrule' : ∀ id ∈ rule.transpose.vars, id < bound :=
    fun id hid => hrule id (mem_vars_transpose.1 hid)
  constructor
  · rintro ⟨⟨replacement, unbound⟩, hmem, hchoice⟩
    rcases mem_uses.1 hmem with huse | ⟨huse, -⟩
    · rw [exists_choice_iff (mem_unbound hrule ht huse), ← exists_applies_iff hrule ht huse]
        at hchoice
      exact hchoice.imp fun σ => .inl
    · rw [exists_choice_iff (mem_unbound hrule' ht huse), ← exists_applies_iff hrule' ht huse]
        at hchoice
      exact hchoice.imp fun σ => .inr
  · rintro ⟨σ, happlies | happlies⟩
    · obtain ⟨⟨replacement, unbound⟩, huse⟩ := exists_use?_of_applies happlies
      refine ⟨_, mem_uses.2 (.inl huse), ?_⟩
      rw [exists_choice_iff (mem_unbound hrule ht huse), ← exists_applies_iff hrule ht huse]
      exact ⟨σ, happlies⟩
    · obtain ⟨⟨replacement, unbound⟩, huse⟩ := exists_use?_of_applies happlies
      have hfilled := (exists_applies_iff hrule' ht huse).1 ⟨σ, happlies⟩
      by_cases hsame : ∃ first, rule.use? t = some first ∧ replacement = first.1
      · obtain ⟨⟨first, open₁⟩, hfirst, rfl⟩ := hsame
        refine ⟨_, mem_uses.2 (.inl hfirst), ?_⟩
        rwa [exists_choice_iff (mem_unbound hrule ht hfirst)]
      · refine ⟨_, mem_uses.2 (.inr ⟨huse, fun first hfirst heq => ?_⟩), ?_⟩
        · exact hsame ⟨first, hfirst, heq⟩
        · rwa [exists_choice_iff (mem_unbound hrule' ht huse)]

/-- **The list and the relation agree.** The listed expansions of an equation above the rules are
the equations one rewrite away. -/
theorem mem_expansions_iff {rules : List Equation} {constants : List Nat}
    (hrules : ∀ rule ∈ rules, ∀ id ∈ rule.vars, id < bound) (hw : ∀ id ∈ w.vars, bound ≤ id)
    {e : Equation} : e ∈ w.expansions rules constants ↔ w.Rewrites rules constants e := by
  simp only [expansions, List.mem_flatMap, List.mem_map]
  constructor
  · rintro ⟨site, hsite, rule, hrule, use, huse, choice, hchoice, rfl⟩
    have ht : ∀ id ∈ site.occurrence.term.vars, bound ≤ id :=
      fun id hid => hw id (vars_of_mem_sites hsite hid)
    obtain ⟨σ, happlies | happlies⟩ :=
      (exists_use_iff (hrules rule hrule) ht).1 ⟨use, huse, choice, hchoice, rfl⟩
    · exact .intro hsite (.inl hrule) happlies
    · exact .intro hsite (.inr (show rule.transpose.transpose ∈ rules from hrule)) happlies
  · rintro ⟨hsite, hknown, happlies⟩
    next site rule σ u =>
    have ht : ∀ id ∈ site.occurrence.term.vars, bound ≤ id :=
      fun id hid => hw id (vars_of_mem_sites hsite hid)
    rcases hknown with hrule | hrule
    · obtain ⟨use, huse, choice, hchoice, rfl⟩ :=
        (exists_use_iff (hrules rule hrule) ht).2 ⟨σ, .inl happlies⟩
      exact ⟨site, hsite, rule, hrule, use, huse, choice, hchoice, rfl⟩
    · obtain ⟨use, huse, choice, hchoice, rfl⟩ :=
        (exists_use_iff (hrules rule.transpose hrule) ht).2 ⟨σ, .inr happlies⟩
      exact ⟨site, hsite, rule.transpose, hrule, use, huse, choice, hchoice, rfl⟩

/-! ### Assigning one variable after the other -/

theorem assign_replaceAt {site : Site} (hsite : site ∈ w.sites) {id : Nat} (hid : id ∉ w.vars)
    (new value : Term) :
    (w.replaceAt site new).assign id value = w.replaceAt site (new.assign id value) := by
  have hw : (w.bind fun i => if i = id then value else .var i) = w :=
    bind_eq_self fun i hi => if_neg (fun h : i = id => hid (h ▸ hi))
  rw [assign_eq_bind, bind_replaceAt _ hsite, hw]
  rfl

/-- The candidates of a choice may be assigned one after the other to the whole equation: the rest
of it has none of the variables, and no candidate is one of them. -/
theorem foldl_assign {site : Site} (hsite : site ∈ w.sites) (hw : ∀ id ∈ w.vars, bound ≤ id)
    (choice : List (Nat × Candidate)) (hids : ∀ entry ∈ choice, entry.1 < bound)
    (hcands : ∀ entry ∈ choice, ∀ id ∈ entry.2.term.vars, bound ≤ id) (new : Term) :
    choice.foldl (fun e entry => e.assign entry.1 entry.2.term) (w.replaceAt site new) =
      w.replaceAt site (new.bind (Candidate.image choice)) := by
  induction choice generalizing new with
  | nil =>
    rw [List.foldl_nil, Term.bind_eq_self]
    exact fun id _ => rfl
  | cons entry rest ih =>
    obtain ⟨id, c⟩ := entry
    have hlt : id < bound := hids (id, c) List.mem_cons_self
    have hfresh : id ∉ w.vars := fun h => by have := hw id h; omega
    rw [List.foldl_cons, assign_replaceAt hsite hfresh,
      ih (fun e he => hids e (List.mem_cons_of_mem _ he))
        (fun e he => hcands e (List.mem_cons_of_mem _ he)), Term.assign, Term.bind_bind]
    congr 1
    refine Term.bind_congr fun i _ => ?_
    rw [Candidate.image_cons]
    by_cases hi : i = id
    · rw [if_pos hi, if_pos hi]
      refine Term.bind_eq_self fun j hj => Candidate.image_of_not_mem fun hmem => ?_
      obtain ⟨e, he, rfl⟩ := List.mem_map.1 hmem
      have hge := hcands (id, c) List.mem_cons_self e.1 hj
      have hlt := hids e (List.mem_cons_of_mem _ he)
      omega
    · rw [if_neg hi, if_neg hi]
      rfl

/-- This is so for the choices of candidates for what a use of a rule leaves open. -/
theorem foldl_assign_use {site : Site} (hsite : site ∈ w.sites) (hw : ∀ id ∈ w.vars, bound ≤ id)
    (hrule : ∀ id ∈ rule.vars, id < bound) {use : Term × List Nat}
    (huse : use ∈ rule.uses site.occurrence.term) {constants : List Nat}
    {choice : List (Nat × Candidate)}
    (hchoice : choice ∈ Candidate.choices (Candidate.listed w constants) use.2) :
    choice.foldl (fun e entry => e.assign entry.1 entry.2.term) (w.replaceAt site use.1) =
      w.replaceAt site (use.1.bind (Candidate.image choice)) := by
  have ht : ∀ id ∈ site.occurrence.term.vars, bound ≤ id :=
    fun id hid => hw id (vars_of_mem_sites hsite hid)
  have hrule' : ∀ id ∈ rule.transpose.vars, id < bound :=
    fun id hid => hrule id (mem_vars_transpose.1 hid)
  obtain ⟨hids, hmem⟩ := Candidate.mem_choices.1 hchoice
  refine foldl_assign hsite hw choice (fun entry hentry => ?_) (fun entry hentry => ?_) _
  · -- what is left open is a variable of the rule
    have hopen : entry.1 ∈ use.2 := hids ▸ List.mem_map.2 ⟨entry, hentry, rfl⟩
    rcases mem_uses.1 huse with huse | ⟨huse, -⟩
    · exact ((mem_unbound hrule ht huse entry.1).1 hopen).2
    · exact ((mem_unbound hrule' ht huse entry.1).1 hopen).2
  · exact fun id hid => hw id (Candidate.mem_vars_term (hmem entry hentry) hid)

/-! ### Moving above the rules -/

theorem above_eq_shift (bound : Nat) (e : Equation) : ∃ n, e.above bound = e.shift n := by
  unfold above
  split
  · split
    · exact ⟨_, rfl⟩
    · exact ⟨0, by simp only [shift, Term.shift_zero]⟩
  · exact ⟨0, by simp only [shift, Term.shift_zero]⟩

theorem le_of_mem_above {e : Equation} {id : Nat} (hid : id ∈ (e.above bound).vars) :
    bound ≤ id := by
  unfold above at hid
  cases hleast : e.freeIds.least? with
  | none =>
    simp only [hleast] at hid
    have hno := IdSet.least?_eq_none _ hleast id
    rw [← contains_freeIds, hno] at hid
    exact absurd hid (by simp)
  | some least =>
    simp only [hleast] at hid
    split at hid
    next hlt =>
      rw [shift_eq_bind, mem_vars_bind] at hid
      obtain ⟨i, hi, hid⟩ := hid
      have hle := IdSet.least?_le _ hleast ((contains_freeIds e i).2 hi)
      rw [Term.mem_vars_var] at hid
      omega
    next hge =>
      have hle := IdSet.least?_le _ hleast ((contains_freeIds e id).2 hid)
      omega

theorem lt_of_mem_above {e : Equation} {n id : Nat} (below : ∀ i ∈ e.vars, i < n)
    (hid : id ∈ (e.above bound).vars) : id < bound + n := by
  unfold above at hid
  split at hid
  next least _ =>
    split at hid
    next =>
      rw [shift_eq_bind, mem_vars_bind] at hid
      obtain ⟨i, hi, hid⟩ := hid
      have hlt := below i hi
      rw [Term.mem_vars_var] at hid
      omega
    next => exact Nat.lt_add_left bound (below id hid)
  next => exact Nat.lt_add_left bound (below id hid)

theorem mem_keys_freeIds {e : Equation} {id : Nat} : id ∈ e.freeIds.keys ↔ id ∈ e.vars := by
  rw [IdMap.mem_keys, contains_freeIds]

theorem above_eq_self {e : Equation} {bound : Nat} (h : ∀ id ∈ e.vars, bound ≤ id) :
    e.above bound = e := by
  unfold above
  split
  next least hleast =>
    have hmem : least ∈ e.vars := mem_keys_freeIds.1 (List.mem_of_mem_head? hleast)
    rw [if_neg (Nat.not_lt.2 (h least hmem))]
  next => rfl

/-! ### Variables -/

/-- A rewrite brings in no new variables: what the rule does not take from the equation is filled
in with variables of the equation and constants. -/
theorem Rewrites.mem_vars {rules : List Equation} {constants : List Nat} {e : Equation}
    (h : w.Rewrites rules constants e) {id : Nat} (hid : id ∈ e.vars) :
    id ∈ w.vars := by
  obtain @⟨site, rule, σ, u, here, known, applies⟩ := h
  rcases mem_vars_replaceAt here hid with hid | hid
  · exact hid
  · rw [← applies.result, Term.mem_vars_bind] at hid
    obtain ⟨i, hi, hid⟩ := hid
    by_cases hlhs : i ∈ rule.lhs.vars
    · refine vars_of_mem_sites here ?_
      rw [← applies.found, Term.mem_vars_bind]
      exact ⟨i, hlhs, hid⟩
    · obtain ⟨c, hc, hσ⟩ := applies.chosen i hi hlhs
      rw [hσ] at hid
      exact Candidate.mem_vars_term hc hid

end Equation

end Equational
