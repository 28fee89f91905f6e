import Equational.Proofs.Collecting
import Equational.Proofs.Rewriting
import Equational.Proofs.Sharing
import Equational.Proofs.Simultaneity
import Mathlib.Data.List.Forall2

/-!
# Rewriting stored expressions

A rule is stored as a statement, and a stored expression is rewritten with it by matching one side
and filling the other one. If the variables of the rule fit into a row, then this succeeds and gives
the uses of the rule's equation, each as an expression of the same context
(`Statement.exists_rewrites`). In the same way a stored statement is searched for an instance of a
pattern (`Statement.hasInstance_eq`).
-/

namespace Equational

open DenseMap (IsNarrow)

/-! ### Terms that can be laid out -/

namespace Vocabulary.Covers

variable {v : Vocabulary} {t u : Term} {σ : Nat → Term}

theorem bind (covered : v.Covers t) (images : ∀ id ∈ t.vars, v.Covers (σ id)) :
    v.Covers (t.bind σ) := by
  induction covered with
  | var id => exact images id (Term.mem_vars_var.2 rfl)
  | const known => exact .const known
  | @app symbol args known _ ih =>
    rw [Term.bind_app]
    refine .app (by rwa [List.length_map]) fun arg harg => ?_
    obtain ⟨t, ht, rfl⟩ := List.mem_map.1 harg
    exact ih t ht fun id hid => images id (Term.mem_vars_app.2 ⟨t, ht, hid⟩)

theorem of_bind (covered : v.Covers (t.bind σ)) {id : Nat} (hid : id ∈ t.vars) :
    v.Covers (σ id) := by
  induction t with
  | var i =>
    obtain rfl := Term.mem_vars_var.1 hid
    exact covered
  | const symbol => cases hid
  | app symbol args ih =>
    obtain ⟨t, ht, hid⟩ := Term.mem_vars_app.1 hid
    rw [Term.bind_app] at covered
    cases covered with
    | app _ each => exact ih t ht (each _ (List.mem_map_of_mem ht)) hid

theorem of_hasAt (covered : v.Covers t) {path : List Nat} (here : t.HasAt path u) :
    v.Covers u := by
  induction here with
  | root t => exact covered
  | arg nth _ ih =>
    cases covered with
    | app _ each => exact ih (each _ (List.mem_of_getElem? nth))

theorem replaceAt (covered : v.Covers t) (new : v.Covers u) (path : List Nat) :
    v.Covers (t.replaceAt path u) := by
  induction path generalizing t with
  | nil =>
    rw [Term.replaceAt]
    exact new
  | cons i path ih =>
    cases covered with
    | var id => exact .var id
    | const known => exact .const known
    | @app symbol args known each =>
      rw [Term.replaceAt]
      refine .app (by rwa [List.length_modify]) fun arg harg => ?_
      obtain ⟨j, hj⟩ := List.mem_iff_getElem?.1 harg
      rw [List.getElem?_modify] at hj
      obtain ⟨t, ht, rfl⟩ := Option.map_eq_some_iff.1 hj
      have hcovered := each t (List.mem_of_getElem? ht)
      split
      · exact ih hcovered
      · exact hcovered

end Vocabulary.Covers

namespace Expression

variable {ctx : Context} {e : Expression} {t : Term}

/-- The expression is of the context and stands for the term, which can be laid out anew. -/
structure Keeps (ctx : Context) (t : Term) (e : Expression) : Prop where
  ctx_eq : e.ctx = ctx
  denotes : e.Denotes t
  covered : Vocabulary.plain.Covers t

theorem Keeps.fits (keeps : e.Keeps ctx t) (narrow : IsNarrow t.vars) : e.Fits := by
  refine ⟨keeps.denotes.denotes_term, ?_⟩
  rw [keeps.denotes.term_eq]
  exact DenseSet.fitRow_of_isNarrow narrow

theorem Keeps.isPlain (keeps : e.Keeps ctx t) (narrow : IsNarrow t.vars) : e.IsPlain := by
  refine ⟨keeps.fits narrow, ?_⟩
  rw [keeps.denotes.term_eq]
  exact keeps.covered

end Expression

/-- A stored rewrite leads to what a use of the equation leads to, and leaves the same open. -/
structure StoredRewrite.IsUse (ctx : Context) (r : StoredRewrite) (use : Term × List Nat) :
    Prop where
  keeps : r.replacement.Keeps ctx use.1
  unbound : r.unbound = use.2

namespace Expression

variable {ctx : Context} {pattern other e : Expression} {t u : Term} {rule : Equation}

/-! ### Matching -/

/-- Matching without bindings succeeds. It finds what it finds in terms, and binds to expressions
of the target's context. -/
theorem exists_match? (hpattern : pattern.Denotes t) (htarget : e.Denotes u)
    (narrow : IsNarrow t.vars) :
    ∃ matched bound, pattern.match? e = .ok (matched, bound) ∧
      t.match? u = (if matched then some (terms bound) else none) ∧
      (matched = true → Continues (· = e.ctx) .empty t.vars bound) := by
  have hagrees : (matchingComparison (· = e.ctx) .empty t.vars).Agrees .empty _ _ :=
    agrees_matchInto (by rfl) hpattern htarget (fun _ hid => hid) .empty
  obtain ⟨⟨matched, bound⟩, ok, -⟩ := hagrees.runs (DenseMap.hasRoom_empty narrow)
  obtain ⟨sound, hideal⟩ := hagrees.finds (continues_empty _ _) _ ok
  have hrun : pattern.match? e = .ok (if matched then (true, bound) else (false, .empty)) :=
    bind_eq_ok.2 ⟨_, ok, rfl⟩
  cases matched with
  | true => exact ⟨true, bound, hrun, hideal, fun _ => sound⟩
  | false => exact ⟨false, .empty, hrun, hideal, fun h => by cases h⟩

/-! ### Rewriting -/

/-- Filling the other side of a rule after a match stays within the context. -/
theorem Keeps.substituted (keeps : other.Keeps ctx u) {bound : DenseMap Expression}
    (kept : ∀ id image, bound.lookup id = some image → image.Keeps ctx image.term) :
    (other.substituted bound.lookup).Keeps ctx (u.subst (terms bound)) where
  ctx_eq := by
    rw [ctx_substituted fun id _ image himage => ?_, keeps.ctx_eq]
    rw [(kept id image himage).ctx_eq, keeps.ctx_eq]
  denotes :=
    keeps.denotes.substituted_lookup fun id _ image himage => (kept id image himage).denotes
  covered := by
    refine keeps.covered.bind fun id _ => ?_
    rw [image_terms]
    cases himage : bound.lookup id with
    | none => exact .var id
    | some image => exact (kept id image himage).covered

theorem isSome_lookup_of_match? {bound : DenseMap Expression}
    (hmatch : u.match? t = some (terms bound)) (id : Nat) :
    (bound.lookup id).isSome = true ↔ id ∈ u.vars := by
  rw [← Term.contains_of_match? hmatch, IdMap.contains, get?_terms, Option.isSome_map]

/-- A match binds to parts of the target. -/
theorem Keeps.of_match? (he : e.Keeps ctx t) {bound : DenseMap Expression}
    (hmatch : u.match? t = some (terms bound)) (sound : Continues (· = e.ctx) .empty u.vars bound)
    {id : Nat} {image : Expression} (himage : bound.lookup id = some image) :
    image.Keeps ctx image.term := by
  have hid : id ∈ u.vars := (isSome_lookup_of_match? hmatch id).1 (by rw [himage]; rfl)
  refine ⟨?_, sound.denotes id hid image himage, ?_⟩
  · rcases sound.homed id image himage with hempty | hctx
    · simp [DenseMap.lookup, DenseMap.empty] at hempty
    · exact hctx.trans he.ctx_eq
  · have hcovered := he.covered
    rw [← Term.bind_image_of_match? hmatch] at hcovered
    have himage' := hcovered.of_bind hid
    rwa [image_terms, himage] at himage'

/-- Rewriting from left to right succeeds, and gives the use of the rule from left to right. -/
theorem exists_rewriteWith (hpattern : pattern.Keeps ctx rule.lhs)
    (hother : other.Keeps ctx rule.rhs) (he : e.Keeps ctx t) (narrow : IsNarrow rule.vars) :
    ∃ result, pattern.rewriteWith other e = .ok result ∧
      List.Forall₂ (StoredRewrite.IsUse ctx) result.toList (rule.use? t).toList := by
  obtain ⟨matched, bound, ok, hmatch, sound⟩ := exists_match? hpattern.denotes he.denotes
    (narrow.mono fun id hid => Equation.mem_vars.2 (.inl hid))
  have huse : rule.use? t = ((rule.lhs.match? t).map Substitution.image).map fun σ =>
      (rule.rhs.bind σ, rule.rhs.freeIds.keys.filter fun id => id ∉ rule.lhs.vars) := by
    rw [Equation.use?, Term.solution?_eq_match?]
  cases matched with
  | false =>
    rw [if_neg Bool.false_ne_true] at hmatch
    rw [huse, hmatch]
    exact ⟨none, bind_eq_ok.2 ⟨_, ok, rfl⟩, .nil⟩
  | true =>
    rw [if_pos rfl] at hmatch
    have narrow' : IsNarrow rule.rhs.vars :=
      narrow.mono fun id hid => Equation.mem_vars.2 (.inr hid)
    have hfill : other.mapFree bound = .ok (other.substituted bound.lookup) :=
      mapFree_eq_ok_iff.2 ⟨fun _ => ⟨hother.fits narrow', fun _ _ _ =>
        (hother.isPlain narrow').covered⟩, rfl⟩
    obtain ⟨ids, hcollect⟩ := Term.exists_collect narrow'
    have hopen : ids.keys.filter (fun id => (bound.lookup id).isNone) =
        rule.rhs.freeIds.keys.filter fun id => id ∉ rule.lhs.vars := by
      have hkeys : ids.keys = rule.rhs.freeIds.keys :=
        congrArg IdMap.keys (Term.toIdMap_of_collect hcollect)
      rw [hkeys]
      refine List.filter_congr fun id _ => ?_
      rw [Bool.eq_iff_iff, decide_eq_true_iff, ← isSome_lookup_of_match? hmatch,
        Option.isNone_iff_eq_none, Option.isSome_iff_ne_none, not_not]
    rw [huse, hmatch]
    refine ⟨some ⟨_, _⟩, bind_eq_ok.2 ⟨_, ok, bind_eq_ok.2 ⟨_, hfill, bind_eq_ok.2
      ⟨ids, hother.denotes.freeIds_eq.trans hcollect, rfl⟩⟩⟩, .cons ⟨?_, hopen⟩ .nil⟩
    exact hother.substituted fun _ _ himage => he.of_match? hmatch (sound rfl) himage

end Expression

namespace Statement

variable {ctx : Context} {s rule premise conclusion : Statement} {e eq₁ eq₂ : Equation} {t u : Term}
  {part pattern other : Expression}

/-- Both sides are of the context and stand for the sides of the equation. -/
structure Keeps (ctx : Context) (e : Equation) (s : Statement) : Prop where
  lhs : s.lhs.Keeps ctx e.lhs
  rhs : s.rhs.Keeps ctx e.rhs

theorem Keeps.ctx_eq (keeps : s.Keeps ctx e) : s.ctx = ctx := keeps.lhs.ctx_eq

theorem Keeps.denotes (keeps : s.Keeps ctx e) : s.Denotes e :=
  ⟨keeps.lhs.denotes, keeps.rhs.denotes⟩

/-- **Stored rules rewrite like their equations.** -/
theorem exists_rewrites (hrule : rule.Keeps ctx e) (hpart : part.Keeps ctx t)
    (narrow : IsNarrow e.vars) :
    ∃ ways, rule.rewrites part = .ok ways ∧
      List.Forall₂ (StoredRewrite.IsUse ctx) ways (e.uses t) := by
  obtain ⟨forth, hforth, first⟩ := Expression.exists_rewriteWith hrule.lhs hrule.rhs hpart narrow
  obtain ⟨back, hback, second⟩ := Expression.exists_rewriteWith
    (show rule.rhs.Keeps ctx e.transpose.lhs from hrule.rhs) hrule.lhs hpart
    (narrow.mono fun id hid => Equation.mem_vars_transpose.1 hid)
  refine ⟨_, bind_eq_ok.2 ⟨forth, hforth, bind_eq_ok.2 ⟨back, hback, rfl⟩⟩, ?_⟩
  refine List.rel_append first (List.rel_filter (fun r use huse => ?_) second)
  have hterms : forth.toList.map (fun r' => r'.replacement.term) =
      (e.use? t).toList.map Prod.fst := by
    rw [← List.forall₂_eq_eq_eq, List.forall₂_map_left_iff, List.forall₂_map_right_iff]
    exact first.imp fun r' use' huse' => huse'.keeps.denotes.term_eq
  have hany : (forth.toList.any fun r' => r'.replacement.identical r.replacement) = true ↔
      use.1 ∈ (e.use? t).toList.map Prod.fst := by
    rw [← hterms, ← huse.keeps.denotes.term_eq, List.any_eq_true, List.mem_map]
    exact exists_congr fun r' => and_congr_right fun _ => beq_iff_eq
  dsimp only
  rw [Bool.not_eq_true', ← Bool.not_eq_true, hany, decide_eq_true_iff]

/-! ### Instances -/

theorem anyM_eq_ok {α β : Type} {f : α → Checked Bool} {g : β → Bool} {l : List α} {l' : List β}
    (each : List.Forall₂ (fun a b => f a = .ok (g b)) l l') : l.anyM f = .ok (l'.any g) := by
  induction each with
  | nil => rfl
  | @cons a b l l' first _ ih =>
    rw [List.anyM, List.any_cons, first, ok_bind, ih]
    cases g b with
    | true => rfl
    | false => rfl

theorem hasInstance_eq (hs : s.Denotes e) (hpattern : pattern.Denotes t)
    (narrow : IsNarrow t.vars) :
    s.hasInstance pattern = .ok (e.hasInstance t) := by
  have hsides : ∀ side, (s.side side).Denotes (s.side side).term := by
    rintro (_ | _)
    · exact hs.lhs.denotes_term
    · exact hs.rhs.denotes_term
  rw [← hs.equation_eq]
  refine anyM_eq_ok ((forall₂_shares hsides).imp fun entry site shares => ?_)
  obtain ⟨part, hview, -, hpart⟩ := shares.shows
  obtain ⟨matched, bound, ok, hmatch, -⟩ := Expression.exists_match? hpattern hpart narrow
  have hfound : (t.match? site.occurrence.term).isSome = matched := by
    rw [hmatch]
    cases matched with
    | true => rfl
    | false => rfl
  exact bind_eq_ok.2 ⟨part, hview, bind_eq_ok.2 ⟨_, ok, congrArg Except.ok hfound.symm⟩⟩

theorem leads_eq (hpremise : premise.Denotes eq₁) (hconclusion : conclusion.Denotes eq₂)
    (hpattern : pattern.Denotes t) (hother : other.Denotes u) (narrow : IsNarrow t.vars)
    (narrow' : IsNarrow u.vars) :
    leads pattern other premise conclusion = .ok (eq₁.hasInstance t && eq₂.hasInstance u) := by
  rw [leads, hasInstance_eq hpremise hpattern narrow, ok_bind]
  cases eq₁.hasInstance t with
  | true => exact hasInstance_eq hconclusion hother narrow'
  | false => rfl

theorem mayLead_eq (hrule : rule.Denotes e) (hpremise : premise.Denotes eq₁)
    (hconclusion : conclusion.Denotes eq₂) (narrow : IsNarrow e.vars) :
    rule.mayLead premise conclusion = .ok (e.mayLead eq₁ eq₂) := by
  have hlhs : IsNarrow e.lhs.vars := narrow.mono fun id hid => Equation.mem_vars.2 (.inl hid)
  have hrhs : IsNarrow e.rhs.vars := narrow.mono fun id hid => Equation.mem_vars.2 (.inr hid)
  rw [mayLead, leads_eq hpremise hconclusion hrule.lhs hrule.rhs hlhs hrhs, ok_bind,
    Equation.mayLead]
  cases eq₁.hasInstance e.lhs && eq₂.hasInstance e.rhs with
  | true => rfl
  | false => exact leads_eq hpremise hconclusion hrule.rhs hrule.lhs hrhs hlhs

end Statement

/-! ### Proof states -/

theorem Backing.stores_stored (b : Backing) (t : Term) :
    (b.stored t).graph.Stores (b.stored t).graph.root t := by
  cases t with
  | var id => exact .free id
  | const symbol => exact .const symbol
  | app symbol args => exact TermGraph.stores_ofTerm (.app symbol args)

theorem Line.denotes_statement (l : Line) (ctx : Context) : (l.statement ctx).Denotes l.equation :=
  ⟨Backing.stores_stored _ _, Backing.stores_stored _ _⟩

namespace ProofState

theorem denotes_statement (s : ProofState) : s.statement.Denotes s.forefront :=
  s.stage.line.denotes_statement s.ctx

theorem findUsage_eq (s : ProofState) {theorems : List Statement}
    (denotes : ∀ rule ∈ theorems, rule.Denotes rule.equation)
    (narrow : ∀ rule ∈ theorems, IsNarrow rule.equation.vars) :
    s.findUsage theorems = .ok (s.usage (theorems.map Statement.equation)) := by
  have hstatements : s.statements.zip s.statements.tail = (s.stages.zip s.stages.tail).map
      (Prod.map (fun stage => stage.line.statement s.ctx) fun stage =>
        stage.line.statement s.ctx) := by
    rw [statements, ← List.map_tail, List.zip_map]
  have hpath : s.path.zip s.path.tail =
      (s.stages.zip s.stages.tail).map (Prod.map Stage.equation Stage.equation) := by
    rw [path, ← List.map_tail, List.zip_map]
  rw [findUsage, usage, List.map_map, hstatements, hpath]
  refine mapM_eq_ok_map fun rule hrule => ?_
  have heach : ((s.stages.zip s.stages.tail).map (Prod.map (fun stage => stage.line.statement s.ctx)
      fun stage => stage.line.statement s.ctx)).mapM
        (fun step => rule.mayLead step.1 step.2) =
      .ok ((s.stages.zip s.stages.tail).map fun step =>
        rule.equation.mayLead step.1.equation step.2.equation) := by
    rw [mapM_eq_ok_iff, List.forall₂_map_left_iff, List.forall₂_map_right_iff, List.forall₂_same]
    intro step _
    exact Statement.mayLead_eq (denotes rule hrule) (step.1.line.denotes_statement s.ctx)
      (step.2.line.denotes_statement s.ctx) (narrow rule hrule)
  refine bind_eq_ok.2 ⟨_, heach, congrArg Except.ok ?_⟩
  rw [Function.comp_apply, List.countP_map, List.countP_map]
  rfl

end ProofState

end Equational
