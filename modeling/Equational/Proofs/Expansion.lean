import Equational.Proofs.Kernel
import Equational.Proofs.Yielding
import Mathlib.Data.List.Basic

/-!
# Successors are the listed expansions

The four nested ranges of an expansion are worked out one item at a time, each in its own
supply. Read to its end, the supply of a state's successors has exactly the equations of
`Kernel.expected`, in that order or, in a randomised kernel, in some order, and no violation
is met on the way. One lemma for each range leads to this, from the innermost one outwards.

A rewrite that replaces a whole side can be made only if its context is the one of the state.
The lemmas count one that cannot be made as an outcome which no state has, `none`. So they say
both what is found if all rewrites can be made, and that the end is not reached otherwise.
-/

namespace Equational

/-! ### Variables that a rewrite leaves open -/

namespace Equation

variable {rule : Equation} {t : Term} {use : Term × List Nat}

/-- The variables of one side only, which a use of the rule may leave open. -/
def openIds (rule : Equation) : List Nat :=
  rule.rhs.vars.filter (fun id => id ∉ rule.lhs.vars) ++
    rule.lhs.vars.filter fun id => id ∉ rule.rhs.vars

theorem mem_vars_of_mem_openIds {id : Nat} (hid : id ∈ rule.openIds) : id ∈ rule.vars := by
  rcases List.mem_append.1 hid with hid | hid
  · exact mem_vars.2 (.inr (List.mem_filter.1 hid).1)
  · exact mem_vars.2 (.inl (List.mem_filter.1 hid).1)

theorem mem_openIds_transpose {id : Nat} : id ∈ rule.transpose.openIds ↔ id ∈ rule.openIds := by
  simp only [openIds, transpose, List.mem_append]
  exact or_comm

theorem mem_vars_of_use? (huse : rule.use? t = some use) {id : Nat} (hid : id ∈ use.1.vars) :
    id ∈ t.vars ∨ id ∈ rule.openIds := by
  obtain ⟨σ, hsol, rfl⟩ := Option.map_eq_some_iff.1 huse
  obtain ⟨i, hi, hid⟩ := Term.mem_vars_bind.1 hid
  by_cases hlhs : i ∈ rule.lhs.vars
  · refine .inl ?_
    rw [← Term.bind_of_solution? hsol, Term.mem_vars_bind]
    exact ⟨i, hlhs, hid⟩
  · rw [Term.solution?_of_not_mem hsol hlhs, Term.mem_vars_var] at hid
    subst hid
    exact .inr (List.mem_append_left _ (List.mem_filter.2 ⟨hi, decide_eq_true hlhs⟩))

/-- What takes the place of a term has variables of the term, and variables that were left open. -/
theorem mem_vars_of_mem_uses (huse : use ∈ rule.uses t) {id : Nat} (hid : id ∈ use.1.vars) :
    id ∈ t.vars ∨ id ∈ rule.openIds := by
  rcases mem_uses.1 huse with huse | ⟨huse, -⟩
  · exact mem_vars_of_use? huse hid
  · exact (mem_vars_of_use? huse hid).imp_right mem_openIds_transpose.1

theorem mem_vars_assign {e : Equation} {i id : Nat} {value : Term}
    (hid : id ∈ (e.assign i value).vars) : id ∈ e.vars ∨ id ∈ value.vars := by
  rw [assign_eq_bind, mem_vars_bind] at hid
  obtain ⟨j, hj, hid⟩ := hid
  split at hid
  next => exact .inr hid
  next =>
    obtain rfl := Term.mem_vars_var.1 hid
    exact .inl hj

end Equation

/-- The second state is one rewrite further than the first one. -/
def ProofState.IsParent (s next : ProofState) : Prop :=
  next.ctx = s.ctx ∧ next.earlier = s.stage :: s.earlier

/-- The rewrite can be made at the site: at the root of a side it has to be of the context. -/
def Rewrite.fits (r : Rewrite) (ctx : Context) (site : Site) : Bool :=
  !site.occurrence.isRoot || r.ctx.same ctx

namespace Expansion

variable {rules : List Rule} {lenient : Prop} (x : Expansion)

/-! ### From the innermost range outwards -/

/-- A supply with the expected equations, each as the forefront of a state one rewrite further. -/
abbrev Lists (rules : List Rule) (lenient : Prop) (x : Expansion)
    (expected : List (Option Equation)) (supply : Supply ProofState) : Prop :=
  supply.Runs rules lenient
    (Delivers x.randomised (fun next => some next.forefront) x.state.IsParent expected)

theorem meets_order :
    x.order.Meets rules lenient fun candidates =>
      Arranged x.randomised candidates x.candidates := by
  unfold order
  cases hrandom : x.randomised with
  | false => exact .pure (.refl _)
  | true =>
    refine (Draws.meets_shuffle x.candidates.toArray).bind fun result hperm => ?_
    exact .pure hperm

/-- All variables that can come together on a side while rewrites are completed are near to each
other. -/
structure HasRoom (rules : List Rule) (span : List Nat) (x : Expansion) : Prop where
  narrow : DenseMap.IsNarrow span
  working : ∀ id ∈ x.working.equation.vars, id ∈ span
  candidates : ∀ c ∈ x.candidates, ∀ id ∈ c.term.vars, id ∈ span
  opened : ∀ rule ∈ rules, ∀ id ∈ rule.equation.openIds, id ∈ span

variable {span : List Nat}

theorem meets_assignments (ids : List Nat) (l : Line)
    (room : lenient ∨ x.HasRoom rules span ∧ ∀ id ∈ l.equation.vars, id ∈ span) :
    (x.assignments ids l).Meets rules lenient (x.Lists rules lenient
      ((Candidate.choices x.candidates ids).map fun choice =>
        some (choice.foldl (fun e entry => e.assign entry.1 entry.2.term) l.equation))) := by
  induction ids generalizing l with
  | nil =>
    have hchild : (Draws.numbered (x.state.child l)).Meets rules lenient fun next =>
        next.forefront = l.equation ∧ x.state.IsParent next :=
      Draws.meets_numbered fun n => ⟨rfl, rfl, rfl⟩
    refine hchild.bind fun next ⟨hfront, hparent⟩ => .pure ?_
    refine Supply.runs_single ⟨?_, ?_⟩
    · rw [List.map_singleton, hfront]
      exact .refl _
    · intro a ha
      obtain rfl := List.mem_singleton.1 ha
      exact hparent
  | cons id ids ih =>
    refine x.meets_order.bind fun candidates horder => ?_
    have hassign : ∀ c ∈ candidates, (do x.assignments ids (← l.assign id c.term) :
        Draws (Supply ProofState)).Meets rules lenient
          (x.Lists rules lenient ((Candidate.choices x.candidates ids).map fun choice =>
          some (choice.foldl (fun e entry => e.assign entry.1 entry.2.term)
            (l.equation.assign id c.term)))) := by
      intro c hc
      have hok : lenient ∨ ∃ l', l.assign id c.term = .ok l' := room.imp_right fun ⟨hroom, hl⟩ =>
        Line.exists_assign (hroom.narrow.mono hl) id c.term
      refine (Draws.meets_liftM hok).bind fun l' hl' => ?_
      rw [← Line.equation_of_assign hl']
      refine ih l' (room.imp_right fun ⟨hroom, hl⟩ => ⟨hroom, fun i hi => ?_⟩)
      rw [Line.equation_of_assign hl'] at hi
      rcases Equation.mem_vars_assign hi with hi | hi
      · exact hl i hi
      · exact hroom.candidates c (horder.perm.mem_iff.1 hc) i hi
    refine Draws.Meets.mono (Supply.meets_scan (Supply.inOrder_fits x.randomised) hassign)
      fun supply hsupply => hsupply.mono fun items hitems => ?_
    refine (hitems.arranged (horder.flatMap _)).arranged ?_
    rw [Candidate.choices, List.map_flatMap]
    simp only [List.map_map]
    exact .refl _

/-- What a rewrite leads to, before the list is put into its final form. -/
def afterRewrite (site : Site) (r : Rewrite) : List Equation :=
  (Candidate.choices x.candidates r.unbound).map fun choice =>
    choice.foldl (fun e entry => e.assign entry.1 entry.2.term)
      (x.working.equation.replaceAt site r.replacement)

/-- What a rewrite leads to, if it can be made. -/
def outcomes (site : Site) (r : Rewrite) : List (Option Equation) :=
  if r.fits x.state.ctx site then (x.afterRewrite site r).map some else [none]

theorem rewritten_eq (site : Site) (r : Rewrite) :
    x.rewritten site r =
      if r.fits x.state.ctx site then .ok (x.working.replaceAt site r.replacement r.backing)
      else .error .contextsDiffer := by
  rw [rewritten, ← Rewrite.fits]
  cases r.fits x.state.ctx site with
  | true => rfl
  | false => rfl

theorem meets_rewritten (site : Site) (r : Rewrite)
    (broken : none ∈ x.outcomes site r → lenient)
    (room : lenient ∨ x.HasRoom rules span ∧
      ∀ id ∈ (x.working.equation.replaceAt site r.replacement).vars, id ∈ span) :
    (do x.assignments r.unbound (← x.rewritten site r) : Draws (Supply ProofState)).Meets rules
      lenient (x.Lists rules lenient (x.outcomes site r)) := by
  rw [rewritten_eq]
  rw [outcomes] at broken ⊢
  by_cases hfits : r.fits x.state.ctx site = true
  · rw [if_pos hfits, if_pos hfits]
    have hassign : (x.assignments r.unbound
        (x.working.replaceAt site r.replacement r.backing)).Meets rules lenient _ :=
      x.meets_assignments r.unbound (x.working.replaceAt site r.replacement r.backing)
        (by rwa [Line.equation_replaceAt])
    rw [Line.equation_replaceAt] at hassign
    rw [afterRewrite, List.map_map]
    exact hassign
  · rw [if_neg hfits] at broken
    rw [if_neg hfits]
    exact fun _ _ => broken List.mem_cons_self

/-- What the rewrites of a site with a rule lead to. -/
def outcomesBy (site : Site) (rule : Rule) : List (Option Equation) :=
  (rule.sentence.rewrites x.state.ctx site.occurrence.term).flatMap (x.outcomes site)

/-- What a rewrite leads to has variables of the working line and variables that were left open. -/
theorem HasRoom.of_mem_rewrites {x : Expansion} (room : x.HasRoom rules span) {site : Site}
    (hsite : site ∈ x.working.equation.sites) {rule : Rule} (hrule : rule ∈ rules) {r : Rewrite}
    (hr : r ∈ rule.sentence.rewrites x.state.ctx site.occurrence.term) {id : Nat}
    (hid : id ∈ (x.working.equation.replaceAt site r.replacement).vars) : id ∈ span := by
  rcases Equation.mem_vars_replaceAt hsite hid with hid | hid
  · exact room.working id hid
  · have huse : (r.replacement, r.unbound) ∈ rule.equation.uses site.occurrence.term := by
      rw [Rule.equation, ← Equation.rewrites_eq_uses rule.sentence x.state.ctx]
      exact List.mem_map.2 ⟨r, hr, rfl⟩
    rcases Equation.mem_vars_of_mem_uses huse hid with hid | hid
    · exact room.working id (Equation.vars_of_mem_sites hsite hid)
    · exact room.opened rule hrule id hid

theorem meets_byRule {site : Site} (hsite : site ∈ x.working.equation.sites) (number : Nat)
    (broken : none ∈ (rules[number]?).elim [] (x.outcomesBy site) → lenient)
    (room : lenient ∨ x.HasRoom rules span) :
    (x.byRule site number).Meets rules lenient
      (x.Lists rules lenient ((rules[number]?).elim [] (x.outcomesBy site))) := by
  refine Draws.meets_rules.bind fun rules' hrules => ?_
  subst hrules
  cases hrule : rules'[number]? with
  | none => exact .pure Delivers.nil
  | some rule =>
    rw [hrule] at broken
    refine Supply.meets_scan (Supply.inOrder_fits x.randomised) fun r hr => ?_
    refine x.meets_rewritten site r (fun h => broken (List.mem_flatMap.2 ⟨r, hr, h⟩))
      (room.imp_right fun hroom => ⟨hroom, fun id => ?_⟩)
    exact hroom.of_mem_rewrites hsite (List.mem_of_getElem? hrule) hr

theorem chooseRule_fits : x.chooseRule.Fits rules lenient x.randomised := by
  unfold chooseRule
  cases x.randomised with
  | false => exact Supply.inOrder_fits false
  | true => exact Supply.atRandom_fits

theorem flatMap_range {α β : Type} (l : List α) (f : α → List β) :
    ((List.range l.length).flatMap fun i => (l[i]?).elim [] f) = l.flatMap f := by
  induction l with
  | nil => rfl
  | cons a l ih =>
    rw [List.length_cons, List.range_succ_eq_map, List.flatMap_cons, List.flatMap_map,
      List.flatMap_cons, ← ih]
    rfl

theorem meets_atSite {site : Site} (hsite : site ∈ x.working.equation.sites)
    (broken : none ∈ rules.flatMap (x.outcomesBy site) → lenient)
    (room : lenient ∨ x.HasRoom rules span) :
    (x.atSite site).Meets rules lenient
      (x.Lists rules lenient (rules.flatMap (x.outcomesBy site))) := by
  refine Draws.meets_rules.bind fun rules' hrules => ?_
  subst hrules
  rw [← flatMap_range] at broken ⊢
  refine Supply.meets_scan x.chooseRule_fits fun number hnumber => ?_
  exact x.meets_byRule hsite number (fun h => broken (List.mem_flatMap.2 ⟨number, hnumber, h⟩)) room

/-- What all rewrites of the forefront lead to. -/
def allOutcomes (rules : List Rule) : List (Option Equation) :=
  x.working.equation.sites.flatMap fun site => rules.flatMap (x.outcomesBy site)

theorem meets_successors (broken : none ∈ x.allOutcomes rules → lenient)
    (room : lenient ∨ x.HasRoom rules span) :
    x.successors.Meets rules lenient (x.Lists rules lenient (x.allOutcomes rules)) := by
  refine Supply.meets_scan (Supply.inOrder_fits x.randomised) fun site hsite => ?_
  exact x.meets_atSite hsite (fun h => broken (List.mem_flatMap.2 ⟨site, hsite, h⟩)) room

/-! ### The list in its final form -/

/-- A rewrite belongs to the context of the rule or to the one of the term. -/
theorem same_of_mem_rewrites {rule : Sentence} {ctx : Context} {t : Term}
    (hsame : rule.ctx.same ctx = true) {r : Rewrite} (hr : r ∈ rule.rewrites ctx t) :
    r.ctx.same ctx = true := by
  have hone (pattern other : Term) (backing : Backing) {r : Rewrite}
      (hr : rule.rewriteWith pattern other backing ctx t = some r) : r.ctx.same ctx = true := by
    unfold Sentence.rewriteWith at hr
    split at hr
    · cases hr
    · obtain rfl := Option.some.inj hr
      dsimp only
      split
      · exact Kernel.same_self ctx
      · exact hsame
  simp only [Sentence.rewrites, List.mem_append, Option.mem_toList, List.mem_filter] at hr
  rcases hr with hr | ⟨hr, -⟩
  · exact hone _ _ _ hr
  · exact hone _ _ _ hr

/-- The candidates are assigned to the rule's variables in what took the place of the term; the
rest of the equation has none of these. -/
theorem flatMap_afterRewrite_eq {bound : Nat} {constants : List Nat} {site : Site} {rule : Sentence}
    (hcands : x.candidates = Candidate.listed x.working.equation constants)
    (hw : ∀ id ∈ x.working.equation.vars, bound ≤ id)
    (hrule : ∀ id ∈ rule.equation.vars, id < bound) (hsite : site ∈ x.working.equation.sites)
    (ctx : Context) :
    (rule.rewrites ctx site.occurrence.term).flatMap (x.afterRewrite site) =
      (rule.equation.uses site.occurrence.term).flatMap fun use =>
        (Candidate.choices (Candidate.listed x.working.equation constants) use.2).map fun choice =>
          x.working.equation.replaceAt site (use.1.bind (Candidate.image choice)) := by
  rw [← Equation.rewrites_eq_uses rule ctx, List.flatMap_map]
  refine List.flatMap_congr fun r hr => ?_
  have huse : (r.replacement, r.unbound) ∈ rule.equation.uses site.occurrence.term := by
    rw [← Equation.rewrites_eq_uses rule ctx]
    exact List.mem_map.2 ⟨r, hr, rfl⟩
  rw [afterRewrite, hcands]
  exact List.map_congr_left fun choice hchoice =>
    Equation.foldl_assign_use hsite hw hrule huse hchoice

theorem outcomesBy_eq {site : Site} {rule : Rule}
    (fits : ∀ r ∈ rule.sentence.rewrites x.state.ctx site.occurrence.term,
      r.fits x.state.ctx site = true) :
    x.outcomesBy site rule =
      ((rule.sentence.rewrites x.state.ctx site.occurrence.term).flatMap
        (x.afterRewrite site)).map some := by
  rw [outcomesBy, List.map_flatMap]
  refine List.flatMap_congr fun r hr => ?_
  rw [outcomes, if_pos (fits r hr)]

theorem allOutcomes_eq {bound : Nat} {constants : List Nat}
    (hcands : x.candidates = Candidate.listed x.working.equation constants)
    (hw : ∀ id ∈ x.working.equation.vars, bound ≤ id)
    (hrules : ∀ rule ∈ rules, ∀ id ∈ rule.equation.vars, id < bound)
    (fits : ∀ site ∈ x.working.equation.sites, ∀ rule ∈ rules,
      ∀ r ∈ rule.sentence.rewrites x.state.ctx site.occurrence.term,
        r.fits x.state.ctx site = true) :
    x.allOutcomes rules =
      (x.working.equation.expansions (rules.map Rule.equation) constants).map some := by
  rw [allOutcomes, Equation.expansions, List.map_flatMap]
  refine List.flatMap_congr fun site hsite => ?_
  rw [List.flatMap_map, List.map_flatMap]
  refine List.flatMap_congr fun rule hrule => ?_
  rw [x.outcomesBy_eq (fits site hsite rule hrule),
    x.flatMap_afterRewrite_eq hcands hw (hrules rule hrule) hsite]
  rfl

theorem none_mem_allOutcomes {site : Site} {rule : Rule} {r : Rewrite}
    (hsite : site ∈ x.working.equation.sites) (hrule : rule ∈ rules)
    (hr : r ∈ rule.sentence.rewrites x.state.ctx site.occurrence.term)
    (fails : r.fits x.state.ctx site = false) : none ∈ x.allOutcomes rules := by
  have hnone : none ∈ x.outcomes site r := by
    rw [outcomes, fails]
    exact List.mem_cons_self
  exact List.mem_flatMap.2 ⟨site, hsite, List.mem_flatMap.2 ⟨rule, hrule,
    List.mem_flatMap.2 ⟨r, hr, hnone⟩⟩⟩

/-! ### Before a violation -/

theorem lasts_assignments (ids : List Nat) (l : Line) :
    (x.assignments ids l).Lasts rules fun supply => supply.Yields rules True fun t =>
      t.forefront ∈ (Candidate.choices x.candidates ids).map (fun choice =>
        choice.foldl (fun e entry => e.assign entry.1 entry.2.term) l.equation) ∧
      x.state.IsParent t := by
  induction ids generalizing l with
  | nil =>
    have hchild : (Draws.numbered (x.state.child l)).Meets rules False fun t =>
        t.forefront = l.equation ∧ x.state.IsParent t :=
      Draws.meets_numbered fun _ => ⟨rfl, rfl, rfl⟩
    refine hchild.lasts.bind fun next ⟨hfront, hparent⟩ =>
      .pure (Supply.yields_single ⟨?_, hparent⟩)
    rw [hfront]
    exact List.mem_cons_self
  | cons id ids ih =>
    refine x.meets_order.lasts.bind fun candidates horder => ?_
    refine Supply.lasts_scan (fun _ => .pure trivial) fun c hc => ?_
    refine (Draws.lasts_liftM (l.assign id c.term)).bind fun l' hl' => ?_
    refine (ih l').mono fun supply hsupply => hsupply.mono fun t ⟨ht, hparent⟩ => ⟨?_, hparent⟩
    obtain ⟨choice, hchoice, hfront⟩ := List.mem_map.1 ht
    rw [Line.equation_of_assign hl'] at hfront
    refine List.mem_map.2 ⟨(id, c) :: choice, ?_, hfront⟩
    rw [Candidate.choices]
    exact List.mem_flatMap.2 ⟨c, horder.perm.mem_iff.1 hc, List.mem_map_of_mem hchoice⟩

/-- What comes of a rule at a site is what one of its rewrites there leads to. -/
theorem lasts_byRule (site : Site) (number : Nat) :
    (x.byRule site number).Lasts rules fun supply => supply.Yields rules True fun t =>
      (∃ rule, rules[number]? = some rule ∧
        ∃ r ∈ rule.sentence.rewrites x.state.ctx site.occurrence.term,
          t.forefront ∈ x.afterRewrite site r) ∧ x.state.IsParent t := by
  refine Draws.meets_rules.lasts.bind fun known hknown => ?_
  subst hknown
  split
  next => exact .pure trivial
  next rule hrule =>
    refine Supply.lasts_scan (fun _ => .pure trivial) fun r hr => ?_
    refine (Draws.lasts_liftM (x.rewritten site r)).bind fun l hl => ?_
    refine (x.lasts_assignments r.unbound l).mono fun supply hsupply => hsupply.mono fun t ht => ?_
    obtain ⟨_, -, hl⟩ := bind_eq_ok.1 hl
    obtain rfl := Except.ok.inj hl
    rw [Line.equation_replaceAt] at ht
    exact ⟨⟨rule, hrule, r, hr, ht.1⟩, ht.2⟩

/-- What all supplies of single rules at single sites have, the successors have. -/
theorem lasts_successors {Q : ProofState → Prop}
    (each : ∀ site ∈ x.working.equation.sites, ∀ number,
      (x.byRule site number).Lasts rules fun supply => supply.Yields rules True Q) :
    x.successors.Lasts rules fun supply => supply.Yields rules True Q := by
  refine Supply.lasts_scan (fun _ => .pure trivial) fun site hsite => ?_
  refine Draws.meets_rules.lasts.bind fun known _ => ?_
  refine Supply.lasts_scan (fun n => ?_) fun number _ => each site hsite number
  rw [chooseRule]
  split
  next => exact Draws.lasts_below n
  next => exact .pure trivial

/-- A variable cannot be assigned on a line whose variables are too far apart. -/
theorem lasts_assignments_false (nonempty : x.candidates ≠ []) {id : Nat} {ids : List Nat}
    {l : Line}
    (far : ∀ value l', l.assign id value ≠ .ok l') :
    (x.assignments (id :: ids) l).Lasts rules fun _ => False := by
  have horder : x.order.Lasts rules fun candidates =>
      Arranged x.randomised candidates x.candidates :=
    x.meets_order.lasts
  refine horder.bind fun candidates harranged => ?_
  have hne : candidates ≠ [] := by
    rintro rfl
    exact nonempty (List.perm_nil.1 harranged.perm.symm)
  obtain ⟨c, cs, rfl⟩ := List.exists_cons_of_ne_nil hne
  refine Supply.lasts_scan_false hne (.pure ⟨c, rfl, ?_⟩)
  exact (Draws.lasts_liftM _).bind fun l' hl' => absurd hl' (far _ l')

/-- A rule fails at a site if its first rewrite there cannot be completed. -/
theorem lasts_byRule_false {site : Site} {number : Nat} {rule : Rule} {r : Rewrite}
    {rs : List Rewrite} (hrule : rules[number]? = some rule)
    (hrewrites : rule.sentence.rewrites x.state.ctx site.occurrence.term = r :: rs)
    (fails : (x.assignments r.unbound (x.working.replaceAt site r.replacement r.backing)).Lasts
      rules fun _ => False) :
    (x.byRule site number).Lasts rules fun _ => False := by
  refine Draws.meets_rules.lasts.bind fun known hknown => ?_
  subst hknown
  rw [hrule]
  refine Supply.lasts_scan_false ?_ (.pure ⟨r, ?_, ?_⟩)
  · rw [hrewrites]
    exact List.cons_ne_nil _ _
  · rw [hrewrites]
    rfl
  · refine (Draws.lasts_liftM _).bind fun l hl => ?_
    obtain ⟨_, -, hl⟩ := bind_eq_ok.1 hl
    obtain rfl := Except.ok.inj hl
    exact fails

/-- If the only rule fails at the first site, then no successor is found. -/
theorem lasts_successors_false {site : Site} {sites : List Site} {rule : Rule}
    (hsites : x.working.equation.sites = site :: sites)
    (fails : (x.byRule site 0).Lasts [rule] fun _ => False) :
    x.successors.Lasts [rule] fun _ => False := by
  have hsite : (x.atSite site).Lasts [rule] fun _ => False := by
    refine Draws.meets_rules.lasts.bind fun known hknown => ?_
    subst hknown
    refine Supply.lasts_scan_false (List.cons_ne_nil _ _) ?_
    have hfirst : (x.chooseRule 1).Lasts [rule] (· < 1) := by
      rw [chooseRule]
      split
      next => exact (Draws.meets_below Nat.one_pos).lasts
      next => exact .pure Nat.one_pos
    refine hfirst.mono fun i hi => ?_
    obtain rfl := Nat.lt_one_iff.1 hi
    exact ⟨0, rfl, fails⟩
  rw [successors, hsites]
  exact Supply.lasts_scan_false (List.cons_ne_nil _ _) (.pure ⟨site, rfl, hsite⟩)

end Expansion

namespace Kernel

variable {k : Kernel} {s : ProofState} {lenient : Prop}

/-- The equations one rewrite away from an equation, moved above the rules. -/
noncomputable def expansions (k : Kernel) (ctx : Context) (e : Equation) : List Equation :=
  (e.above k.bound).expansions k.equations ctx.signature.constants

/-- The forefronts of the successors of a state: without the equations that repeat its path, if
the kernel is so set. -/
noncomputable def expected (k : Kernel) (s : ProofState) : List Equation :=
  if k.options.noRepeats then
    (k.expansions s.ctx s.forefront).filter fun e => !e.repeats s.path
  else k.expansions s.ctx s.forefront

theorem mem_expansions (bounded : k.IsBounded) {ctx : Context} {e next : Equation} :
    next ∈ k.expansions ctx e ↔
      (e.above k.bound).Rewrites k.equations ctx.signature.constants next :=
  Equation.mem_expansions_iff bounded fun _ => Equation.le_of_mem_above

theorem mem_expected {e : Equation} :
    e ∈ k.expected s ↔ e ∈ k.expansions s.ctx s.forefront ∧
      (k.options.noRepeats = true → e.repeats s.path = false) := by
  rw [expected]
  split
  next hset => simp [hset, List.mem_filter]
  next hset => simp [hset]

theorem IsHomed.sentence {rule : Rule} (homed : k.IsHomed) (hrule : rule ∈ k.rules) :
    rule.sentence.ctx.same k.ctx = true := by
  rw [rule.sentence_eq]
  exact homed.same rule hrule

/-- Every rewrite of the forefront by a rule can be made. -/
def Fits (k : Kernel) (s : ProofState) : Prop :=
  ∀ site ∈ (s.forefront.above k.bound).sites, ∀ rule ∈ k.rules,
    ∀ r ∈ rule.sentence.rewrites s.ctx site.occurrence.term, r.fits s.ctx site = true

/-- The variables that a use of a rule may leave open. -/
def openIds (k : Kernel) : List Nat := k.equations.flatMap Equation.openIds

/-- There is room for the rewrites of an equation: moved above the rules its variables are words,
and they are near to each other and to those that the rules leave open. -/
structure HasRoom (k : Kernel) (e : Equation) : Prop where
  words : ∀ id ∈ (e.above k.bound).vars, id < UInt64.size
  narrow : DenseMap.IsNarrow (k.openIds ++ (e.above k.bound).vars)

instance (k : Kernel) (e : Equation) : Decidable (k.HasRoom e) :=
  decidable_of_iff ((∀ id ∈ (e.above k.bound).vars, id < UInt64.size) ∧
    DenseMap.IsNarrow (k.openIds ++ (e.above k.bound).vars))
    ⟨fun h => ⟨h.1, h.2⟩, fun h => ⟨h.words, h.narrow⟩⟩

theorem HasRoom.narrow_above {e : Equation} (room : k.HasRoom e) :
    DenseMap.IsNarrow (e.above k.bound).vars :=
  room.narrow.mono fun _ hid => List.mem_append_right _ hid

theorem HasRoom.narrow_vars {e : Equation} (room : k.HasRoom e) : DenseMap.IsNarrow e.vars := by
  obtain ⟨n, hn⟩ := Equation.above_eq_shift k.bound e
  exact Equation.isNarrow_shift_iff.1 (hn ▸ room.narrow_above)

theorem HasRoom.congr {k' : Kernel} {e : Equation} (room : k.HasRoom e)
    (hrules : k.equations = k'.equations) (hbound : k.bound = k'.bound) : k'.HasRoom e := by
  obtain ⟨words, narrow⟩ := room
  rw [openIds, hrules, hbound] at narrow
  exact ⟨hbound ▸ words, narrow⟩

/-- What an expansion of a state starts with. -/
structure Expands (k : Kernel) (s : ProofState) (x : Expansion) : Prop where
  state : x.state = s
  working : x.working.equation = s.forefront.above k.bound
  candidates : x.candidates = Candidate.listed x.working.equation s.ctx.signature.constants
  randomised : x.randomised = k.options.randomised

theorem Expands.hasRoom {x : Expansion} (expands : k.Expands s x) (room : k.HasRoom s.forefront) :
    x.HasRoom k.rules (k.openIds ++ (s.forefront.above k.bound).vars) where
  narrow := room.narrow
  working id hid := List.mem_append_right _ (expands.working ▸ hid)
  candidates c hc id hid := by
    rw [expands.candidates] at hc
    exact List.mem_append_right _ (expands.working ▸ Candidate.mem_vars_term hc hid)
  opened rule hrule id hid :=
    List.mem_append_left _ (List.mem_flatMap.2 ⟨rule.equation, List.mem_map_of_mem hrule, hid⟩)

/-- What comes of the three steps that start an expansion. -/
theorem expands_of_ok {l working : Line} {candidates : List Candidate} {n : Nat}
    (hmove : Expansion.moveAbove k.bound s.stage.line = .ok l)
    (hnumber : (l.number.run n).1 = working)
    (hcands : Candidate.all working.equation s.ctx.signature.constants = .ok candidates) :
    k.Expands s { state := s, working, candidates, randomised := k.options.randomised } where
  state := rfl
  working := by
    show working.equation = _
    rw [← hnumber]
    exact show l.equation = _ from Line.equation_of_moveAbove hmove
  candidates := Candidate.all_eq_ok hcands
  randomised := rfl

theorem meets_ofState {rules : List Rule} (room : lenient ∨ k.HasRoom s.forefront) :
    (Expansion.ofState k s).Meets rules lenient (k.Expands s) := by
  have hmove : lenient ∨ ∃ l, Expansion.moveAbove k.bound s.stage.line = .ok l :=
    room.imp_right fun room => Line.exists_moveAbove room.narrow_vars room.words
  refine (Draws.meets_liftM hmove).bind fun l hl => ?_
  have hnumber : (Draws.numbered l.number).Meets rules lenient fun working =>
      ∃ n, (l.number.run n).1 = working := Draws.meets_numbered fun n => ⟨n, rfl⟩
  refine hnumber.bind fun working ⟨n, hn⟩ => ?_
  have hequation : working.equation = s.forefront.above k.bound := by
    rw [← hn]
    exact show l.equation = _ from Line.equation_of_moveAbove hl
  have hcands : lenient ∨
      ∃ candidates, Candidate.all working.equation s.ctx.signature.constants = .ok candidates :=
    room.imp_right fun room => ⟨_, Candidate.exists_all (hequation ▸ room.narrow_above) _⟩
  exact (Draws.meets_liftM hcands).bind fun candidates hc => .pure (expands_of_ok hl hn hc)

theorem lasts_ofState {rules : List Rule} : (Expansion.ofState k s).Lasts rules (k.Expands s) := by
  refine (Draws.lasts_liftM _).bind fun l hl => ?_
  have hnumber : (Draws.numbered l.number).Meets rules False fun working =>
      ∃ n, (l.number.run n).1 = working := Draws.meets_numbered fun n => ⟨n, rfl⟩
  refine hnumber.lasts.bind fun working ⟨n, hn⟩ => ?_
  exact (Draws.lasts_liftM _).bind fun candidates hc => .pure (expands_of_ok hl hn hc)

/-- The states that are left when repetitions are left out, if the kernel is so set. -/
def kept (k : Kernel) (s : ProofState) (items : List ProofState) : List ProofState :=
  if k.options.noRepeats then items.filter fun next => !next.forefront.repeats s.path else items

theorem meets_successors_of {post : List ProofState → Prop}
    (room : lenient ∨ k.HasRoom s.forefront)
    (h : ∀ x, k.Expands s x → x.successors.Meets k.rules lenient fun supply =>
      supply.Runs k.rules lenient fun items => post (k.kept s items)) :
    (k.successors s).Meets k.rules lenient fun supply => supply.Runs k.rules lenient post := by
  refine (meets_ofState room).bind fun x hx => (h x hx).bind fun supply hsupply => ?_
  unfold kept at hsupply
  cases hrepeats : k.options.noRepeats with
  | false =>
    simp only [hrepeats] at hsupply
    exact .pure hsupply
  | true =>
    simp only [hrepeats] at hsupply
    exact Reply.meets_toDraws (Supply.runs_reject hsupply)

/-- **Successors are the expected ones.** If every rewrite of a state can be made, then however its
successors are read to the end, their forefronts are the expected equations. No violation is met if
there is room. -/
theorem meets_successors_of_fits (bounded : k.IsBounded) (fits : k.Fits s)
    (room : lenient ∨ k.HasRoom s.forefront) :
    (k.successors s).Meets k.rules lenient fun supply => supply.Runs k.rules lenient
      (Delivers k.options.randomised ProofState.forefront s.IsParent (k.expected s)) := by
  refine meets_successors_of room fun x expands => ?_
  obtain ⟨hstate, hworking, hcands, hrandom⟩ := expands
  subst hstate
  have hw : ∀ id ∈ x.working.equation.vars, k.bound ≤ id :=
    fun id hid => Equation.le_of_mem_above (hworking ▸ hid)
  have hrules : ∀ rule ∈ k.rules, ∀ id ∈ rule.equation.vars, id < k.bound :=
    fun rule hrule => bounded _ (List.mem_map_of_mem hrule)
  have hlist := x.allOutcomes_eq hcands hw hrules (hworking ▸ fits)
  have hnone : none ∈ x.allOutcomes k.rules → lenient := by
    intro hnone
    rw [hlist] at hnone
    simp at hnone
  have hroom := room.imp_right (Expands.hasRoom ⟨rfl, hworking, hcands, hrandom⟩)
  refine (x.meets_successors hnone hroom).mono fun supply hsupply =>
    hsupply.mono fun items hitems => ?_
  rw [hlist, hworking, hrandom] at hitems
  obtain ⟨harranged, hparent⟩ := hitems.of_map_some
  rw [kept, expected]
  split
  next =>
    refine ⟨?_, fun a ha => hparent a (List.mem_filter.1 ha).1⟩
    have hfilter := harranged.filter fun e => !e.repeats x.state.path
    rwa [List.filter_map] at hfilter
  next => exact ⟨harranged, hparent⟩

/-- The rewrites of a state of the kernel's context can be made if the rules are about it. -/
theorem IsHomed.fits (homed : k.IsHomed) (hctx : s.ctx = k.ctx) : k.Fits s := by
  intro site _ rule hrule r hr
  have hsame : rule.sentence.ctx.same s.ctx = true := hctx ▸ homed.sentence hrule
  rw [Rewrite.fits, Expansion.same_of_mem_rewrites hsame hr, Bool.or_true]

/-- What comes of every expansion of the state comes of the kernel, and nothing that repeats the
path if the kernel is so set. -/
theorem lasts_successors_from {ends : Prop} {Q : ProofState → Prop}
    (h : ∀ x, k.Expands s x →
      x.successors.Lasts k.rules fun supply => supply.Yields k.rules ends Q) :
    (k.successors s).Lasts k.rules fun supply => supply.Yields k.rules ends fun t =>
      Q t ∧ (k.options.noRepeats = true → t.forefront.repeats s.path = false) := by
  refine lasts_ofState.bind fun x hx => (h x hx).bind fun supply hsupply => ?_
  split
  next =>
    refine (Reply.lasts_toDraws (hsupply.reject _)).mono fun kept hkept => ?_
    exact hkept.mono fun t ht => ⟨ht.1, fun _ => ht.2⟩
  next hset => exact .pure (hsupply.mono fun t ht => ⟨ht, fun h => absurd h hset⟩)

theorem lasts_successors_of {Q : ProofState → Prop}
    (each : ∀ x, k.Expands s x → ∀ site ∈ x.working.equation.sites, ∀ number,
      (x.byRule site number).Lasts k.rules fun supply => supply.Yields k.rules True Q) :
    (k.successors s).Lasts k.rules fun supply => supply.Yields k.rules True fun t =>
      Q t ∧ (k.options.noRepeats = true → t.forefront.repeats s.path = false) :=
  lasts_successors_from fun x hx => x.lasts_successors (each x hx)

/-- Whether or not the end is reached, what comes up is expected. -/
theorem lasts_successors (bounded : k.IsBounded) (s : ProofState) :
    (k.successors s).Lasts k.rules fun supply => supply.Yields k.rules True fun t =>
      t.forefront ∈ k.expected s ∧ s.IsParent t := by
  have heach : ∀ x, k.Expands s x → ∀ site ∈ x.working.equation.sites, ∀ number,
      (x.byRule site number).Lasts k.rules fun supply => supply.Yields k.rules True fun t =>
        t.forefront ∈ k.expansions s.ctx s.forefront ∧ s.IsParent t := by
    rintro x ⟨rfl, hworking, hcands, -⟩ site hsite number
    refine (x.lasts_byRule site number).mono fun supply hsupply => hsupply.mono ?_
    rintro t ⟨⟨rule, hrule, r, hr, ht⟩, hparent⟩
    have hmem := List.mem_of_getElem? hrule
    have hw : ∀ id ∈ x.working.equation.vars, k.bound ≤ id :=
      fun id hid => Equation.le_of_mem_above (hworking ▸ hid)
    have hafter := List.mem_flatMap.2 ⟨r, hr, ht⟩
    rw [x.flatMap_afterRewrite_eq hcands hw (bounded _ (List.mem_map_of_mem hmem)) hsite] at hafter
    rw [expansions, ← hworking]
    exact ⟨List.mem_flatMap.2 ⟨site, hsite, List.mem_flatMap.2
      ⟨rule.equation, List.mem_map_of_mem hmem, hafter⟩⟩, hparent⟩
  refine (lasts_successors_of heach).mono fun supply hsupply => hsupply.mono ?_
  rintro t ⟨⟨hmem, hparent⟩, hkept⟩
  exact ⟨mem_expected.2 ⟨hmem, hkept⟩, hparent⟩

end Kernel

end Equational
