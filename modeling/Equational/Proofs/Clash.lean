import Equational.Proofs.Reordering
import Equational.Proofs.RuleSet

/-!
# Searches that fail

A rewrite of a whole side of the forefront brings the context of its rule with it, unless what it
puts there is a part of the old side. If this is not the context of the state then the rewrite
cannot be made, and a search that comes to it fails. Whether there is such a rewrite can be told
from the rules and the forefront (`Kernel.Clashes`): a rule of another context overwrites a side.
Otherwise the search finds all that is expected, if there is room for the rewrites.

Two things bring rules of other contexts into a search. A kernel may be made from axioms that are
about another context with the same symbols (`Kernel.ofAxioms_searches_iff`). And when a symbol is
defined, the rules are from then on about a new context, while a state that is there already keeps
its own (`Kernel.define_searches_iff`).
-/

namespace Equational

/-! ### Heights -/

namespace Term

theorem height_le_heightArgs {t : Term} {ts : List Term} (h : t ∈ ts) :
    t.height ≤ heightArgs ts := by
  induction ts with
  | nil => exact absurd h List.not_mem_nil
  | cons first ts ih =>
    rw [heightArgs]
    rcases List.mem_cons.1 h with rfl | h
    · exact Nat.le_max_left _ _
    · exact Nat.le_trans (ih h) (Nat.le_max_right _ _)

theorem height_lt_app (symbol : Nat) {t : Term} {ts : List Term} (h : t ∈ ts) :
    t.height < (app symbol ts).height := by
  have hle := height_le_heightArgs h
  rw [height]
  omega

theorem height_le_bind (σ : Nat → Term) {t : Term} {id : Nat} (hid : id ∈ t.vars) :
    (σ id).height ≤ (t.bind σ).height := by
  induction t with
  | var i =>
    obtain rfl := mem_vars_var.1 hid
    exact Nat.le_refl _
  | const symbol => exact absurd hid (by simp)
  | app symbol args ih =>
    obtain ⟨arg, harg, hid⟩ := mem_vars_app.1 hid
    rw [bind_app]
    exact Nat.le_trans (ih arg harg hid) (Nat.le_of_lt (height_lt_app _ (List.mem_map_of_mem harg)))

/-- A term is higher than what stands for its variables, unless it is one of them. -/
theorem height_lt_bind (σ : Nat → Term) {t : Term} {id : Nat} (hid : id ∈ t.vars)
    (proper : t ≠ .var id) : (σ id).height < (t.bind σ).height := by
  cases t with
  | var i => exact absurd (congrArg var (mem_vars_var.1 hid).symm) proper
  | const symbol => exact absurd hid (by simp)
  | app symbol args =>
    obtain ⟨arg, harg, hid⟩ := mem_vars_app.1 hid
    rw [bind_app]
    exact Nat.lt_of_le_of_lt (height_le_bind σ hid) (height_lt_app _ (List.mem_map_of_mem harg))

end Term

/-! ### Rules that overwrite a term -/

/-- Used from left to right on the term, the rule puts something there that is not a part of it. -/
structure Equation.Overwrites (rule : Equation) (t : Term) : Prop where
  found : ∃ σ, rule.lhs.bind σ = t
  brings : ∀ id ∈ rule.lhs.vars, rule.rhs ≠ .var id

theorem Equation.exists_var_of_not_overwrites {rule : Equation} {t : Term}
    (found : ∃ σ, rule.lhs.bind σ = t) (h : ¬rule.Overwrites t) :
    ∃ id ∈ rule.lhs.vars, rule.rhs = .var id := by
  by_contra hnone
  exact h ⟨found, fun id hid heq => hnone ⟨id, hid, heq⟩⟩

/-- In one of its directions, the rule overwrites a side of the equation. -/
def Equation.OverwritesSide (rule e : Equation) : Prop :=
  ∃ side, rule.Overwrites (e.side side) ∨ rule.transpose.Overwrites (e.side side)

namespace Sentence

variable {rule : Sentence} {ctx : Context} {t : Term}

theorem isBoundVar_iff {pattern : Term} (other : Term) {bound : Substitution}
    (found : pattern.match? t = some bound) :
    other.isBoundVar bound = true ↔ ∃ id ∈ pattern.vars, other = .var id := by
  cases other with
  | var id =>
    rw [Term.isBoundVar, Term.contains_of_match? found]
    simp
  | const symbol => simp [Term.isBoundVar]
  | app symbol args => simp [Term.isBoundVar]

/-- One direction gives a rewrite of another context just if the rule is of another one and
overwrites the term. -/
theorem exists_rewriteWith_iff (rule : Sentence) (pattern other : Term) (backing : Backing)
    (ctx : Context) (t : Term) :
    (∃ r, rule.rewriteWith pattern other backing ctx t = some r ∧ r.ctx.same ctx = false) ↔
      rule.ctx.same ctx = false ∧ (Equation.mk pattern other).Overwrites t := by
  rw [rewriteWith]
  cases found : pattern.match? t with
  | none =>
    constructor
    · rintro ⟨r, hr, -⟩
      cases hr
    · rintro ⟨-, ⟨σ, hσ⟩, -⟩
      exact absurd hσ (Term.bind_ne_of_match?_eq_none found σ)
  | some bound =>
    have hbound := isBoundVar_iff other found
    by_cases hvar : other.isBoundVar bound = true
    · obtain ⟨id, hid, hother⟩ := hbound.1 hvar
      constructor
      · rintro ⟨r, hr, hsame⟩
        obtain rfl := Option.some.inj hr
        simp [hvar, Kernel.same_self] at hsame
      · rintro ⟨-, -, hbrings⟩
        exact absurd hother (hbrings id hid)
    · have hoverwrites : (Equation.mk pattern other).Overwrites t :=
        ⟨⟨_, Term.bind_image_of_match? found⟩, fun id hid heq => hvar (hbound.2 ⟨id, hid, heq⟩)⟩
      simp [hvar, hoverwrites]

theorem exists_match_of_rewriteWith {pattern other : Term} {backing : Backing} {r : Rewrite}
    (hr : rule.rewriteWith pattern other backing ctx t = some r) :
    ∃ bound, pattern.match? t = some bound ∧ r.replacement = other.subst bound := by
  rw [rewriteWith] at hr
  split at hr
  next => cases hr
  next bound found =>
    obtain rfl := Option.some.inj hr
    exact ⟨bound, found, rfl⟩

/-- Where the left side has the right side as a variable and is more than that, the two directions
do not lead to the same. -/
theorem subst_ne_subst {lhs : Term} {id : Nat} {forth back : Substitution}
    (hforth : lhs.match? t = some forth) (hback : (Term.var id).match? t = some back)
    (hid : id ∈ lhs.vars) (proper : lhs ≠ .var id) :
    (Term.var id).subst forth ≠ lhs.subst back := by
  intro heq
  have hpart : (forth.image id).height ≤ t.height := by
    rw [← Term.bind_image_of_match? hforth]
    exact Term.height_le_bind _ hid
  have hwhole : back.image id = t := Term.bind_image_of_match? hback
  have hgrown : t.height < (lhs.subst back).height := by
    have hlt := Term.height_lt_bind back.image hid proper
    rwa [hwhole] at hlt
  rw [← heq] at hgrown
  exact absurd hgrown (Nat.not_lt.2 hpart)

theorem replacement_ne_replacement {lhs rhs : Term} {left right : Backing} {forth back : Rewrite}
    (hforth : rule.rewriteWith lhs rhs right ctx t = some forth)
    (hback : rule.rewriteWith rhs lhs left ctx t = some back)
    (hkeeps : ¬(Equation.mk lhs rhs).Overwrites t)
    (hoverwrites : (Equation.mk rhs lhs).Overwrites t) : forth.replacement ≠ back.replacement := by
  obtain ⟨bound, hmatch, hreplacement⟩ := exists_match_of_rewriteWith hforth
  obtain ⟨bound', hmatch', hreplacement'⟩ := exists_match_of_rewriteWith hback
  obtain ⟨id, hid, hrhs⟩ :=
    Equation.exists_var_of_not_overwrites ⟨_, Term.bind_image_of_match? hmatch⟩ hkeeps
  obtain rfl : rhs = .var id := hrhs
  rw [hreplacement, hreplacement']
  exact subst_ne_subst hmatch hmatch' hid (hoverwrites.brings id (by simp))

/-- The rewrites of a term that are of another context come from a rule of another one that
overwrites the term in one of its directions. This direction is not left out for having the result
of the other one. -/
theorem exists_rewrite_iff :
    (∃ r ∈ rule.rewrites ctx t, r.ctx.same ctx = false) ↔ rule.ctx.same ctx = false ∧
      (rule.equation.Overwrites t ∨ rule.equation.transpose.Overwrites t) := by
  obtain ⟨rctx, ⟨⟨lhs, rhs⟩, left, right⟩⟩ := rule
  have hforth := exists_rewriteWith_iff ⟨rctx, ⟨⟨lhs, rhs⟩, left, right⟩⟩ lhs rhs right ctx t
  have hback := exists_rewriteWith_iff ⟨rctx, ⟨⟨lhs, rhs⟩, left, right⟩⟩ rhs lhs left ctx t
  simp only [rewrites, List.mem_append, Option.mem_toList, List.mem_filter]
  constructor
  · rintro ⟨r, hr | ⟨hr, -⟩, hsame⟩
    · obtain ⟨hctx, hoverwrites⟩ := hforth.1 ⟨r, hr, hsame⟩
      exact ⟨hctx, .inl hoverwrites⟩
    · obtain ⟨hctx, hoverwrites⟩ := hback.1 ⟨r, hr, hsame⟩
      exact ⟨hctx, .inr hoverwrites⟩
  · rintro ⟨hctx, hoverwrites⟩
    by_cases hfirst : (Equation.mk lhs rhs).Overwrites t
    · obtain ⟨r, hr, hsame⟩ := hforth.2 ⟨hctx, hfirst⟩
      exact ⟨r, .inl hr, hsame⟩
    · have hsecond : (Equation.mk rhs lhs).Overwrites t := hoverwrites.resolve_left hfirst
      obtain ⟨r, hr, hsame⟩ := hback.2 ⟨hctx, hsecond⟩
      refine ⟨r, .inr ⟨hr, ?_⟩, hsame⟩
      rw [Bool.not_eq_true', List.any_eq_false]
      intro r' hr'
      rw [beq_iff_eq]
      exact replacement_ne_replacement (Option.mem_toList.1 hr') hr hfirst hsecond

end Sentence

/-! ### Sides -/

namespace Equation

variable {rule e : Equation}

theorem root_mem_sites (e : Equation) (side : Side) :
    Site.mk side ⟨[], e.side side⟩ ∈ e.sites :=
  mem_sites.2 (.root _)

theorem term_of_isRoot {site : Site} (h : site ∈ e.sites) (root : site.occurrence.isRoot = true) :
    site.occurrence.term = e.side site.side := by
  obtain ⟨side, path, t⟩ := site
  have hpath : path = [] := List.isEmpty_iff.1 root
  have hat := mem_sites.1 h
  simp only [hpath] at hat
  generalize e.side side = whole at hat
  cases hat with
  | root => rfl

/-- Whether a rule overwrites a term does not depend on how its variables are numbered. -/
theorem overwrites_shift_iff (n : Nat) {t : Term} :
    rule.Overwrites (t.shift n) ↔ rule.Overwrites t := by
  constructor
  · rintro ⟨⟨σ, hσ⟩, hbrings⟩
    refine ⟨⟨fun id => (σ id).bind fun id => .var (id - n), ?_⟩, hbrings⟩
    rw [← Term.bind_bind, hσ, Term.shift_bind_sub]
  · rintro ⟨⟨σ, rfl⟩, hbrings⟩
    exact ⟨⟨_, (Term.bind_bind _ _ _).symm⟩, hbrings⟩

theorem overwrites_side_above_iff (bound : Nat) (side : Side) :
    rule.Overwrites ((e.above bound).side side) ↔ rule.Overwrites (e.side side) := by
  obtain ⟨n, hn⟩ := e.above_eq_shift bound
  rw [hn]
  cases side with
  | lhs => exact overwrites_shift_iff n
  | rhs => exact overwrites_shift_iff n

theorem not_overwritesSide_var (id : Nat) (e : Equation) :
    ¬(Equation.mk (.var id) (.var id)).OverwritesSide e := by
  rintro ⟨side, overwrites | overwrites⟩
  · exact overwrites.brings id (by simp) rfl
  · exact overwrites.brings id (by simp [transpose]) rfl

/-- Every other rule overwrites a side of each of its instances. -/
theorem overwritesSide_bind (proper : ∀ id, rule ≠ ⟨.var id, .var id⟩) (σ : Nat → Term) :
    rule.OverwritesSide (rule.bind σ) := by
  by_cases hforth : rule.Overwrites (rule.lhs.bind σ)
  · exact ⟨.lhs, .inl hforth⟩
  · -- the right side is a variable of the left side, and the left side is more than that
    obtain ⟨id, -, hrhs⟩ := exists_var_of_not_overwrites ⟨σ, rfl⟩ hforth
    refine ⟨.rhs, .inr ⟨⟨σ, rfl⟩, fun i hi hlhs => proper id ?_⟩⟩
    obtain ⟨lhs, rhs⟩ := rule
    obtain rfl : rhs = .var id := hrhs
    obtain rfl : i = id := Term.mem_vars_var.1 hi
    exact congrArg (Equation.mk · (.var i)) hlhs

end Equation

namespace Kernel

variable {k : Kernel} {s : ProofState}

/-- A rule of another context overwrites a side of the forefront. -/
def Clashes (k : Kernel) (s : ProofState) : Prop :=
  ∃ rule ∈ k.rules, rule.sentence.ctx.same s.ctx = false ∧
    rule.equation.OverwritesSide s.forefront

/-- The rewrites that cannot be made are those of clashes. -/
theorem fits_iff_not_clashes : k.Fits s ↔ ¬k.Clashes s := by
  constructor
  · rintro fits ⟨rule, hrule, hctx, side, hoverwrites⟩
    have hoverwrites' := hoverwrites.imp (Equation.overwrites_side_above_iff k.bound side).2
      (Equation.overwrites_side_above_iff k.bound side).2
    let t := (s.forefront.above k.bound).side side
    obtain ⟨r, hr, hsame⟩ : ∃ r ∈ rule.sentence.rewrites s.ctx t, r.ctx.same s.ctx = false :=
      Sentence.exists_rewrite_iff.2 ⟨hctx, hoverwrites'⟩
    have hfits := fits _ (Equation.root_mem_sites _ side) rule hrule r hr
    rw [Rewrite.fits, hsame] at hfits
    cases hfits
  · intro free site hsite rule hrule r hr
    by_contra hfits
    -- a rewrite is only refused at a root, and the term there is the whole side
    rw [Bool.not_eq_true, Rewrite.fits, Bool.or_eq_false_iff, Bool.not_eq_false'] at hfits
    obtain ⟨hroot, hsame⟩ := hfits
    obtain ⟨hctx, hoverwrites⟩ := Sentence.exists_rewrite_iff.1 ⟨r, hr, hsame⟩
    rw [Equation.term_of_isRoot hsite hroot, Equation.overwrites_side_above_iff,
      Equation.overwrites_side_above_iff] at hoverwrites
    exact free ⟨rule, hrule, hctx, site.side, hoverwrites⟩

/-- If some rewrite of a state cannot be made, no reading of its successors comes to the end. -/
theorem meets_successors_of_clashes (clashes : k.Clashes s) :
    (k.successors s).Meets k.rules True fun supply => supply.Runs k.rules True fun _ => False := by
  have hfits : ¬k.Fits s := fun fits => fits_iff_not_clashes.1 fits clashes
  simp only [Fits, not_forall] at hfits
  obtain ⟨site, hsite, rule, hrule, r, hr, hfails⟩ := hfits
  refine meets_successors_of (.inl trivial) fun x ⟨hstate, hworking, _, _⟩ => ?_
  subst hstate
  rw [← hworking] at hsite
  have hnone := x.none_mem_allOutcomes hsite hrule hr (Bool.not_eq_true _ ▸ hfails)
  have hroom : True ∨ x.HasRoom k.rules [] := .inl trivial
  refine (x.meets_successors (fun _ => trivial) hroom).mono fun supply hsupply =>
    hsupply.mono ?_
  rintro items ⟨harranged, -⟩
  -- no state has `none` as its forefront
  have hmem := harranged.perm.mem_iff.2 hnone
  simp at hmem

/-- Opened and driven to its end, a cursor over the successors of the state finds the equations. -/
def Finds (k : Kernel) (s : ProofState) (es : List Equation) : Prop :=
  ∀ source : Source, source.rules = k.rules →
    ∃ c source', (k.cursor s).runOn source = (.ok c, source') ∧ source'.rules = k.rules ∧
      c.Exhausts k.rules fun items =>
        Arranged k.options.randomised (items.map ProofState.forefront) es

/-- A cursor over the successors of the state cannot be opened, or fails when it is driven to its
end, whatever else happens to the source that leaves the rules as they are. -/
def Fails (k : Kernel) (s : ProofState) : Prop :=
  ∀ source : Source, source.rules = k.rules →
    ∀ c source', (k.cursor s).runOn source = (.ok c, source') →
      ∀ between : ProofState → Source → Source,
        (∀ t source, source.rules = k.rules → (between t source).rules = k.rules) →
          c.Fails between source'

theorem finds_of_not_clashes (bounded : k.IsBounded) (free : ¬k.Clashes s)
    (room : k.HasRoom s.forefront) : k.Finds s (k.expected s) := by
  intro source hs
  obtain ⟨c, source', hrun, hs', -, hruns⟩ :=
    (meets_cursor_of_fits bounded (fits_iff_not_clashes.2 free) (.inr room)).exists_runOn hs
  exact ⟨c, source', hrun, hs', (hruns.mono fun _ hitems => hitems.1).exhausts c.kind⟩

theorem fails_of_clashes (clashes : k.Clashes s) : k.Fails s := by
  intro source hs c source' hrun between fixed
  have hopens : (k.cursor s).Meets k.rules True fun c =>
      c.supply.Runs k.rules True fun _ => False :=
    (meets_successors_of_clashes clashes).bind fun _ h => .pure h
  obtain ⟨hs', hruns⟩ := hopens.of_runOn hs hrun
  exact hruns.fails fixed c.kind (fun _ => id) source' hs'

theorem Finds.not_fails {es : List Equation} (finds : k.Finds s es) : ¬k.Fails s := by
  intro fails
  obtain ⟨c, source, hrun, hs, hexhausts⟩ := finds k.source rfl
  exact hexhausts.not_fails (fun _ _ => id) hs
    (fails k.source rfl c source hrun (fun _ source => source) fun _ _ => id)

/-- An equation that says more than that a variable is equal to itself overwrites a side of the
forefront of some state that a proof can reach. -/
theorem exists_reaches_overwritten (k : Kernel) {rule : Equation}
    (proper : ∀ id, rule ≠ ⟨.var id, .var id⟩) :
    ∃ s, k.Reaches s ∧ s.ctx = k.ctx ∧ rule.OverwritesSide s.forefront := by
  -- a proof of the instance with one variable can be started, wherever the variables of the rule
  -- are
  let e : Equation := rule.bind fun _ => .var 0
  have narrow : DenseMap.IsNarrow e.vars := by
    have hzero : ∀ id ∈ e.vars, id = 0 := by
      intro id hid
      obtain ⟨_, -, hid⟩ := Equation.mem_vars_bind.1 hid
      exact Term.mem_vars_var.1 hid
    intro i hi j hj
    rw [hzero i hi, hzero j hj]
    decide
  have hequation : (Statement.ofEquation k.ctx e).equation = e := Statement.equation_ofEquation _ _
  obtain ⟨s, begins⟩ : ∃ s, k.Begins (.ofEquation k.ctx e) s :=
    exists_begins (same_self k.ctx) (hequation.symm ▸ narrow)
  obtain ⟨hctx, hfront, -⟩ := begins.start
  refine ⟨s, begins.reaches, hctx, ?_⟩
  rw [hfront, hequation]
  exact Equation.overwritesSide_bind proper _

end Kernel

/-- The context of an involution once more. -/
def Context.copy : Context := { Context.involution with label := 1 }

def Statement.reflexivity : Statement := .ofEquation .copy ⟨.var 0, .var 0⟩

/-- Applying an involution once changes nothing. -/
def Statement.identity : Statement := .ofEquation .involution ⟨.app 0 [.var 0], .var 0⟩

/-- The state that starts a proof of it. -/
def ProofState.identity : ProofState :=
  ((start .involution (.ofStatement .identity)).run 0).1

namespace Kernel

variable {k : Kernel} {s : ProofState}

theorem begins_identity (k : Kernel) (hctx : k.ctx = .involution) :
    k.Begins .identity .identity := by
  refine ⟨{}, ((k.prove .identity).runOn {}).2, ?_⟩
  rw [prove, hctx]
  rfl

theorem exists_of_map_eq_error {α : Type} {run : Checked α × Source} {cause : Violation}
    (h : (run.1.map fun _ => ()) = .error cause) : ∃ source, run = (.error cause, source) := by
  obtain ⟨result, source⟩ := run
  cases result with
  | error cause' =>
    cases h
    exact ⟨source, rfl⟩
  | ok value => cases h

/-! ### Axioms of another context -/

theorem of_ofAxioms_ok {ctx : Context} {options : KernelOptions} {axioms : List Statement}
    (ok : ofAxioms ctx options axioms = .ok k) :
    ctx = k.ctx ∧ k.rules = axioms.map .ofStatement ∧ k.IsBounded := by
  obtain ⟨-, ok⟩ := ofAxioms_eq_ok_iff.1 ok
  obtain ⟨bound, hbound, rfl⟩ := rebuilt_eq_ok_iff.1 ok
  have hstatements : Kernel.statements { ctx, options, axioms, rng := ⟨options.seed⟩ } = axioms :=
    List.append_nil axioms
  rw [hstatements] at hbound ⊢
  exact ⟨rfl, rfl, (isLeast_bound ((map_statement_ofStatement axioms).symm ▸ hbound)).1⟩

/-- **Axioms of another context.** Take a kernel that was made from axioms. No state that a proof
reaches clashes with an axiom just if each axiom is of the kernel's context or says that a variable
is equal to itself. The search from a state that clashes fails, and from one that does not and has
room for the rewrites it finds all that is expected. -/
theorem ofAxioms_searches_iff {ctx : Context} {options : KernelOptions} {axioms : List Statement}
    (ok : ofAxioms ctx options axioms = .ok k) :
    ((∀ s, k.Reaches s → ¬k.Clashes s) ↔
      ∀ a ∈ axioms, a.ctx.same ctx = true ∨ ∃ id, a.equation = ⟨.var id, .var id⟩) ∧
    ∀ s, (k.Clashes s → k.Fails s) ∧
      (¬k.Clashes s → k.HasRoom s.forefront → k.Finds s (k.expected s)) := by
  obtain ⟨rfl, hrules, bounded⟩ := of_ofAxioms_ok ok
  refine ⟨⟨fun free a ha => ?_, fun harmless s reaches => ?_⟩,
    fun s => ⟨fails_of_clashes, finds_of_not_clashes bounded⟩⟩
  · by_contra hnot
    rw [not_or, not_exists, Bool.not_eq_true] at hnot
    have hrule : Rule.ofStatement a ∈ k.rules := hrules ▸ List.mem_map_of_mem ha
    obtain ⟨s, reaches, hctx, overwrites⟩ := k.exists_reaches_overwritten hnot.2
    exact free s reaches ⟨.ofStatement a, hrule, hctx ▸ hnot.1, overwrites⟩
  · rintro ⟨rule, hrule, hother, overwrites⟩
    rw [hrules] at hrule
    obtain ⟨a, ha, rfl⟩ := List.mem_map.1 hrule
    rcases harmless a ha with hsame | ⟨id, heq⟩
    · rw [reaches.ctx] at hother
      cases hsame.symm.trans hother
    · rw [show (Rule.ofStatement a).equation = _ from heq] at overwrites
      exact Equation.not_overwritesSide_var id _ overwrites

/-- An axiom of the kernel's context, and one of another context that overwrites nothing. -/
theorem ofAxioms_searches_iff_involution :
    ∃ k root, ofAxioms .involution {} [.involution, .reflexivity] = .ok k ∧
      k.Begins .fourfold root ∧ (∀ s, k.Reaches s → ¬k.Clashes s) ∧
      k.Finds root (k.expected root) := by
  let k : Kernel :=
    { involution {} with
      axioms := [.involution, .reflexivity]
      rules := [.ofStatement .involution, .ofStatement .reflexivity] }
  have hok : ofAxioms .involution {} [.involution, .reflexivity] = .ok k := by decide +kernel
  obtain ⟨hiff, hsearch⟩ := ofAxioms_searches_iff hok
  have hfree : ∀ s, k.Reaches s → ¬k.Clashes s := hiff.2 fun a ha => by
    rcases List.mem_cons.1 ha with rfl | ha
    · exact .inl (same_self _)
    · obtain rfl := List.mem_singleton.1 ha
      exact .inr ⟨0, Statement.equation_ofEquation _ _⟩
  have hroom : k.HasRoom Statement.fourfold.equation := by decide +kernel
  obtain ⟨root, begins⟩ : ∃ root, k.Begins .fourfold root :=
    exists_begins (same_self _) hroom.narrow_vars
  refine ⟨k, root, hok, begins, hfree, (hsearch root).2 (hfree root begins.reaches) ?_⟩
  rw [begins.start.2.1]
  exact hroom

/-- The axiom of an involution is taken from a copy of the context: the first rewrite cannot be
made. -/
theorem ofAxioms_search_refused :
    ∃ k root source, ofAxioms .involution {} [Statement.involution.readIn .copy] = .ok k ∧
      k.Begins .identity root ∧ k.HasRoom Statement.identity.equation ∧
      (k.cursor root).runOn k.source = (.error .contextsDiffer, source) := by
  let k : Kernel :=
    { involution {} with
      axioms := [Statement.involution.readIn .copy]
      rules := [.ofStatement (Statement.involution.readIn .copy)] }
  have hrefused : (((k.cursor .identity).runOn k.source).1.map fun _ => ()) =
      .error .contextsDiffer := by
    decide +kernel
  obtain ⟨source, hrun⟩ := exists_of_map_eq_error hrefused
  exact ⟨k, .identity, source, by decide +kernel, begins_identity k rfl, by decide +kernel, hrun⟩

/-! ### Symbols that are defined during a proof -/

theorem same_of_withSymbol {ctx larger : Context} {label : Nat} {name : String} {arity : Nat}
    (valid : ctx.withSymbol label name arity = .ok larger) (older : s.ctx.label ≠ label) :
    larger.same s.ctx = false := by
  rw [Context.same, (Context.of_withSymbol_ok valid).2.1]
  exact beq_eq_false_iff_ne.2 older.symm

theorem equations_readIn (current : k.refreshed = k) (larger : Context) :
    (k.readIn larger).refreshed.equations = k.equations := by
  rw [equations_refreshed, statements_readIn, List.map_map, ← congrArg equations current,
    equations_refreshed]
  rfl

theorem bound_readIn (current : k.refreshed = k) (larger : Context) :
    (k.readIn larger).refreshed.bound = k.bound := by
  refine Eq.trans ?_ (congrArg Kernel.bound current)
  show leastAbove (k.readIn larger).statements = leastAbove k.statements
  rw [statements_readIn]
  exact leastAbove_congr List.map_map

/-- All rules of the kernel in which the symbol is defined are of the larger context. -/
theorem clashes_readIn_iff (current : k.refreshed = k) {larger : Context}
    (other : larger.same s.ctx = false) :
    (k.readIn larger).refreshed.Clashes s ↔
      ∃ rule ∈ k.equations, rule.OverwritesSide s.forefront := by
  rw [← equations_readIn current larger, Clashes, equations]
  simp only [List.mem_map, exists_exists_and_eq_and]
  refine exists_congr fun rule => and_congr_right fun hrule => and_iff_right ?_
  obtain ⟨st, hst, rfl⟩ := List.mem_map.1 hrule
  rw [statements_readIn] at hst
  obtain ⟨st', -, rfl⟩ := List.mem_map.1 hst
  exact other

theorem expected_readIn (current : k.refreshed = k) (larger : Context) (s : ProofState) :
    (k.readIn larger).refreshed.expected s = k.expected s :=
  expected_congr (equations_readIn current larger) (bound_readIn current larger) rfl rfl rfl
    fun _ => rfl

/-- **Symbols defined during a proof.** A symbol with a name and an arity that are allowed can be
defined in a kernel whose batches are in use. Before, the searches from states with room for the
rewrites found all that is expected. If the context of the symbol is a new one, then afterwards no
state that was reached before clashes with a rule just if each rule says that a variable is equal to
itself. The search from a state of any older context fails if a rule overwrites a side of the
forefront. Otherwise, if there is room, it finds what was expected before. -/
theorem define_searches_iff {ctx larger : Context} {options : KernelOptions} {start : Kernel}
    {log : List Event} {label : Nat} {name : String} {arity : Nat}
    (read : Kernel.read ctx options = .ok start) (history : start.History log k)
    (usable : ∀ b ∈ Event.live log, ∀ s ∈ b.theorems, s.IsUsable)
    (valid : k.ctx.withSymbol label name arity = .ok larger) (new : k.ctx.label ≠ label) :
    ∃ k', (define label name arity).on k = (.ok (), k') ∧
      (∀ s, k.Reaches s → k.HasRoom s.forefront → k.Finds s (k.expected s)) ∧
      ((∀ s, k.Reaches s → ¬k'.Clashes s) ↔
        ∀ rule ∈ k.equations, ∃ id, rule = ⟨.var id, .var id⟩) ∧
      ∀ s : ProofState, s.ctx.label ≠ label →
        ((∃ rule ∈ k.equations, rule.OverwritesSide s.forefront) → k'.Fails s) ∧
        ((∀ rule ∈ k.equations, ¬rule.OverwritesSide s.forefront) → k.HasRoom s.forefront →
          k'.Finds s (k.expected s)) := by
  have agrees := history.agrees read
  obtain ⟨-, own, current⟩ := history.refreshed_eq read usable
  have homed : k.IsHomed := by
    refine ⟨fun rule hrule => ?_, current ▸ isBounded_refreshed k⟩
    rw [agrees.homed _ (map_rules_of_refreshed current ▸ List.mem_map_of_mem hrule)]
    exact same_self k.ctx
  have hclashes : ∀ s : ProofState, s.ctx.label ≠ label →
      ((k.readIn larger).refreshed.Clashes s ↔
        ∃ rule ∈ k.equations, rule.OverwritesSide s.forefront) :=
    fun s older => clashes_readIn_iff current (same_of_withSymbol valid older)
  have hdefine : (define label name arity).on k = (.ok (), (k.readIn larger).refreshed) := by
    have houtcome := outcome_define label name arity k
    refine eq_of_outcome_ok houtcome (redefined_eq_ok agrees.homed valid) fun s hs => ?_
    rw [statements_readIn] at hs
    obtain ⟨s', hs', rfl⟩ := List.mem_map.1 hs
    exact Statement.isUsable_readIn (own s' hs') larger
  refine ⟨_, hdefine, fun s reaches room => ?_, ⟨fun free rule hrule => ?_, ?_⟩, ?_⟩
  · exact finds_of_not_clashes homed.bounded
      (fits_iff_not_clashes.1 (homed.fits reaches.ctx)) room
  · by_contra hnot
    obtain ⟨s, reaches, hctx, overwrites⟩ := k.exists_reaches_overwritten (not_exists.1 hnot)
    exact free s reaches ((hclashes s (hctx ▸ new)).2 ⟨rule, hrule, overwrites⟩)
  · rintro harmless s reaches clashes
    obtain ⟨rule, hrule, overwrites⟩ := (hclashes s (reaches.ctx ▸ new)).1 clashes
    obtain ⟨id, rfl⟩ := harmless rule hrule
    exact Equation.not_overwritesSide_var id _ overwrites
  · intro s older
    refine ⟨fun overwrites => fails_of_clashes ((hclashes s older).2 overwrites), ?_⟩
    intro free room
    rw [← expected_readIn current larger]
    refine finds_of_not_clashes (isBounded_refreshed _) (fun clashes => ?_)
      (room.congr (equations_readIn current larger).symm (bound_readIn current larger).symm)
    obtain ⟨rule, hrule, overwrites⟩ := (hclashes s older).1 clashes
    exact free rule hrule overwrites

/-- One step after a fourfold involution, a constant is defined. -/
theorem define_searches_iff_involution :
    ∃ root s k', (involution {}).Begins .fourfold root ∧ (involution {}).Chain root 1 s ∧
      (define 1 "c" 0).on (involution {}) = (.ok (), k') ∧
      (involution {}).Finds s ((involution {}).expected s) ∧ k'.Fails s := by
  obtain ⟨root, s, hbegins, hchain, -⟩ := exists_chain_involution {}
  have hvalid : (involution {}).ctx.withSymbol 1 "c" 0 = .ok .pointed := by decide +kernel
  obtain ⟨k', hdefine, hfound, -, hsearch⟩ :=
    define_searches_iff (read_involution {}) .new (by simp [Event.live]) hvalid (by decide)
  have hctx := hchain.ctx hbegins.start.1
  have hroom := HasRoom.chain (built_involution {}).homed.bounded
    (hbegins.start.2.1 ▸ hasRoom_fourfold {}) hchain
  obtain ⟨hfails, -⟩ := hsearch s (by rw [hctx]; decide)
  refine ⟨root, s, k', hbegins, hchain, hdefine, hfound s ⟨_, root, 1, hbegins, hchain⟩ hroom,
    hfails ?_⟩
  refine ⟨_, List.mem_cons_self, .lhs, .inr ⟨⟨fun _ => s.forefront.side .lhs, rfl⟩, ?_⟩⟩
  intro id _ hvar
  cases hvar

/-- The first rewrite cannot be made any more. -/
theorem define_search_refused :
    ∃ root k' source, (involution {}).Begins .identity root ∧
      (involution {}).Finds root ((involution {}).expected root) ∧
      (define 1 "c" 0).on (involution {}) = (.ok (), k') ∧
      (k'.cursor root).runOn k'.source = (.error .contextsDiffer, source) := by
  let k' : Kernel := ((involution {}).readIn .pointed).refreshed
  have hroom : (involution {}).HasRoom Statement.identity.equation :=
    (hasRoom_involution_iff {}).2 (by decide +kernel)
  have hrefused : (((k'.cursor .identity).runOn k'.source).1.map fun _ => ()) =
      .error .contextsDiffer := by
    decide +kernel
  obtain ⟨source, hrun⟩ := exists_of_map_eq_error hrefused
  refine ⟨.identity, k', source, begins_identity _ rfl, ?_, by decide +kernel, hrun⟩
  exact finds_of_not_clashes (built_involution {}).homed.bounded
    (fits_iff_not_clashes.1 ((built_involution {}).homed.fits rfl)) hroom

end Kernel

end Equational
