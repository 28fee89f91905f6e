import Equational.Proofs.Building
import Equational.Proofs.StoredMatching

/-!
# Substitution is simultaneous

Variables are replaced by expressions in one way, record by record with a copy for each occurrence,
and relabelled in another, in place and in all records at once. Relabelling is filling with leaves,
so both are the substitution of terms (`Denotes.substituted`, `stores_relabel`), and what is true of
substitutions is true of storages in whatever layout: all variables are replaced at once, replacing
twice is replacing once by the composite, and each way of relabelling is a way of replacing.
-/

namespace Equational

/-! ### Relabelling is filling with leaves -/

namespace TermGraph

variable {g g' : TermGraph} {node : Node} {t : Term} {label : Nat → Option Node}

/-- The graph of one leaf that a variable is relabelled with. -/
def leafImage (label : Nat → Option Node) (id : Nat) : Option TermGraph :=
  (label id).map fun leaf => { root := leaf }

/-- What relabelling does to a node is what filling with leaves does. -/
theorem filled_relabelNode (leaves : ∀ id leaf, label id = some leaf → leaf.kind ≠ .func)
    (g : TermGraph) (node : Node) : Filled (leafImage label) g 0 node (relabelNode label node) := by
  cases node with
  | const symbol => exact .const symbol
  | func index => exact .func index
  | free id =>
    rw [relabelNode]
    cases hlabel : label id with
    | none => exact .free (by rw [leafImage, hlabel]; rfl)
    | some leaf =>
      refine .image (by rw [leafImage, hlabel]; rfl) fun t ht g' _ => ?_
      refine ht.of_leaf fun index hleaf => leaves id leaf hlabel ?_
      rw [show leaf = .func index from hleaf]
      rfl

theorem Stores.relabel (h : g.Stores node t)
    (leaves : ∀ id leaf, label id = some leaf → leaf.kind ≠ .func)
    (records : ∀ (index : Nat) (r : Record), g.records[index]? = some r →
      g'.records[index]? = some ⟨r.symbol, r.args.map (relabelNode label)⟩)
    {σ : Nat → Term}
    (images : ∀ id ∈ t.vars, (∃ leaf, label id = some leaf ∧ Stores { root := leaf } leaf (σ id)) ∨
      label id = none ∧ σ id = .var id) :
    g'.Stores (relabelNode label node) (t.bind σ) := by
  refine h.fill (fun index r found => ?_) (fun id hid => ?_)
    (filled_relabelNode leaves g' node)
  · refine ⟨_, records index r found, List.forall₂_map_right_iff.2 (List.forall₂_same.2 ?_)⟩
    exact fun arg _ => filled_relabelNode leaves g' arg
  · rcases images id hid with ⟨leaf, hlabel, hleaf⟩ | ⟨hlabel, hvar⟩
    · exact .inl ⟨{ root := leaf }, by rw [leafImage, hlabel]; rfl, hleaf⟩
    · exact .inr ⟨by rw [leafImage, hlabel]; rfl, hvar⟩

/-- **Relabelling denotes substitution** by leaves. -/
theorem stores_relabel (h : g.Stores g.root t)
    (leaves : ∀ id leaf, label id = some leaf → leaf.kind ≠ .func) {σ : Nat → Term}
    (images : ∀ id ∈ t.vars, (∃ leaf, label id = some leaf ∧ Stores { root := leaf } leaf (σ id)) ∨
      label id = none ∧ σ id = .var id) :
    (g.relabel label).Stores (g.relabel label).root (t.bind σ) := by
  rw [TermGraph.relabel]
  split
  next id hroot =>
    obtain rfl : t = .var id := by
      rw [hroot] at h
      cases h
      rfl
    rw [Term.bind_var]
    rcases images id (Term.mem_vars_var.2 rfl) with ⟨leaf, hlabel, hleaf⟩ | ⟨hlabel, hvar⟩
    · rw [hlabel]
      exact hleaf
    · rw [hlabel, hvar]
      exact h
  next hroot =>
    have hsame : relabelNode label g.root = g.root := by
      cases hnode : g.root with
      | free id => exact absurd hnode (hroot id)
      | const symbol => rfl
      | func index => rfl
    let g' : TermGraph :=
      ⟨g.root, g.records.map fun r => ⟨r.symbol, r.args.map (relabelNode label)⟩⟩
    have hstores : g'.Stores (relabelNode label g.root) (t.bind σ) := by
      refine h.relabel leaves (fun index r found => ?_) images
      rw [Array.getElem?_map, found]
      rfl
    rw [hsame] at hstores
    exact hstores

end TermGraph

namespace Expression

variable {e e' : Expression} {t : Term} {image first second composite : Nat → Option Expression}

/-! ### Replacing twice -/

/-- What the variables of the expression are bound to has no circles. -/
def Admits (e : Expression) (images : DenseMap Expression) : Prop :=
  ∀ id ∈ e.term.vars, ∀ image, images.lookup id = some image → image.graph.IsAcyclic

/-- For the variables of the expression, the last bindings do what the first ones do and then the
second ones. -/
def Composes (e : Expression) (first second composite : DenseMap Expression) : Prop :=
  ∀ id ∈ e.term.vars,
    (∀ image, first.lookup id = some image →
      ∃ image', image.mapFree second = .ok image' ∧ composite.lookup id = some image') ∧
    (first.lookup id = none → composite.lookup id = second.lookup id)

/-- Expressions of one context that denote the same term. -/
def Coincides (a b : Expression) : Prop := a.ctx = b.ctx ∧ ∃ t, a.Denotes t ∧ b.Denotes t

theorem substituted_of_free {id : Nat} (root : e.graph.root = .free id)
    (image : Nat → Option Expression) : e.substituted image = (image id).getD e := by
  rw [substituted, root]

/-- Only a variable alone can take a context from elsewhere. -/
theorem ctx_substituted_cases (e : Expression) (image : Nat → Option Expression) :
    (e.substituted image).ctx = e.ctx ∨
      ∃ id, e.graph.root = .free id ∧ image id = some (e.substituted image) := by
  rw [substituted]
  split
  next id hroot =>
    cases hid : image id with
    | none => exact .inl rfl
    | some other => exact .inr ⟨id, hroot, hid⟩
  next => exact .inl rfl
  next =>
    split
    · exact .inl rfl
    · exact .inl rfl

theorem ctx_substituted (leaf : ∀ id, e.graph.root = .free id → ∀ other, image id = some other →
    other.ctx = e.ctx) : (e.substituted image).ctx = e.ctx := by
  rcases e.ctx_substituted_cases image with h | ⟨id, hroot, hid⟩
  · exact h
  · exact leaf id hroot _ hid

theorem ctx_substituted_substituted (h : e.Denotes t)
    (composes : ∀ id ∈ t.vars,
      composite id = ((first id).map fun other => other.substituted second).or (second id))
    {σ : Nat → Term} (denotes : (e.substituted first).Denotes (t.bind σ)) :
    ((e.substituted first).substituted second).ctx = (e.substituted composite).ctx := by
  cases t with
  | var id =>
    have hroot := h.root_eq_free
    rw [substituted_of_free hroot, substituted_of_free hroot,
      composes id (Term.mem_vars_var.2 rfl)]
    cases first id with
    | some other => rfl
    | none => exact congrArg ctx (substituted_of_free hroot second)
  | const symbol =>
    have hsame : ∀ image, e.substituted image = e := fun image => by
      rw [substituted, h.root_eq_const]
    rw [hsame, hsame, hsame]
  | app symbol args =>
    rw [Term.bind_app] at denotes
    obtain ⟨index, hroot⟩ := h.root_eq_func
    obtain ⟨index', hroot'⟩ := denotes.root_eq_func
    rw [ctx_substituted (fun id hid => by cases hroot'.symm.trans hid),
      ctx_substituted (fun id hid => by cases hroot.symm.trans hid),
      ctx_substituted (fun id hid => by cases hroot.symm.trans hid)]

/-- What a variable becomes. -/
def imageTerm (image : Nat → Option Expression) (id : Nat) : Term := (image id).elim (.var id) term

theorem Denotes.substituted_imageTerm (h : e.Denotes t)
    (denoted : ∀ id ∈ t.vars, ∀ other, image id = some other → other.Denotes other.term) :
    (e.substituted image).Denotes (t.bind (imageTerm image)) := by
  refine h.substituted fun id hid => ?_
  rw [imageTerm]
  cases hother : image id with
  | some other => exact .inl ⟨other, rfl, denoted id hid other hother⟩
  | none => exact .inr ⟨rfl, rfl⟩

/-- **Replacing twice is replacing by the composite.** -/
theorem substituted_coincides (h : e.Denotes t)
    (composes : ∀ id ∈ t.vars,
      composite id = ((first id).map fun other => other.substituted second).or (second id))
    (denoted : ∀ id ∈ t.vars, ∀ other, first id = some other → other.Denotes other.term)
    (denoted' : ∀ id ∈ (t.bind (imageTerm first)).vars, ∀ other, second id = some other →
      other.Denotes other.term) :
    ((e.substituted first).substituted second).Coincides (e.substituted composite) := by
  have hfirst := h.substituted_imageTerm denoted
  have hvars : ∀ id ∈ t.vars, ∀ i ∈ (imageTerm first id).vars,
      i ∈ (t.bind (imageTerm first)).vars := fun id hid i hi => Term.mem_vars_bind.2 ⟨id, hid, hi⟩
  refine ⟨ctx_substituted_substituted h composes hfirst, _,
    hfirst.substituted_imageTerm denoted', ?_⟩
  rw [Term.bind_bind]
  refine h.substituted fun id hid => ?_
  have hid' := hvars id hid
  rw [imageTerm] at hid' ⊢
  rw [composes id hid]
  cases hother : first id with
  | some other =>
    -- What a variable is bound to is replaced in its turn.
    rw [hother] at hid'
    refine .inl ⟨_, rfl, (denoted id hid other hother).substituted_imageTerm fun i hi => ?_⟩
    exact denoted' i (hid' i hi)
  | none =>
    rw [hother] at hid'
    show (∃ other, second id = some other ∧ other.Denotes (imageTerm second id)) ∨
      second id = none ∧ imageTerm second id = .var id
    rw [imageTerm]
    cases hsecond : second id with
    | none => exact .inr ⟨rfl, rfl⟩
    | some other =>
      have hvar := hid' id (Term.mem_vars_var.2 rfl)
      exact .inl ⟨other, rfl, denoted' id hvar other hsecond⟩

/-! ### Relabelling -/

theorem Denotes.assigned (h : e.Denotes t) (id : Nat) {leaf : Node} {u : Term}
    (isLeaf : leaf.kind ≠ .func) (hleaf : TermGraph.Stores { root := leaf } leaf u) :
    (e.assigned id leaf).Denotes (t.assign id u) := by
  rw [Expression.assigned, Term.assign]
  split
  next =>
    refine TermGraph.stores_relabel h (fun i other hother => ?_) fun i _ => ?_
    · split at hother
      · obtain rfl := Option.some.inj hother
        exact isLeaf
      · cases hother
    · by_cases hi : i = id
      · exact .inl ⟨leaf, if_pos hi, by rwa [if_pos hi]⟩
      · exact .inr ⟨if_neg hi, if_neg hi⟩
  next hnot =>
    have hself : t.bind (fun i => if i = id then u else .var i) = t := by
      refine Term.bind_eq_self fun i hi => if_neg ?_
      rintro rfl
      exact hnot (h.term_eq.symm ▸ hi)
    rw [hself]
    exact h

theorem Denotes.shifted (h : e.Denotes t) (n : Nat) : (e.shifted n).Denotes (t.shift n) := by
  rw [Expression.shifted, Term.shift, h.term_eq]
  split
  next hidle =>
    have hself : t.bind (fun id => .var (id + n)) = t := by
      refine Term.bind_eq_self fun id hid => ?_
      rcases hidle with rfl | hempty
      · rfl
      · simp [hempty] at hid
    rw [hself]
    exact h
  next =>
    show (e.graph.relabel fun id => some (.free (id + n))).Stores _ _
    refine TermGraph.stores_relabel h (fun id leaf hleaf => ?_) fun id _ => ?_
    · obtain rfl := Option.some.inj hleaf
      exact (by decide : NodeKind.free ≠ .func)
    · exact .inl ⟨_, rfl, .free _⟩

/-- Relabelling one variable is replacing it by a leaf. -/
theorem assigned_coincides (h : e.Denotes t) (id : Nat) {leaf : Node} {u : Term}
    (isLeaf : leaf.kind ≠ .func) (hleaf : TermGraph.Stores { root := leaf } leaf u)
    (single : ∀ i, image i = if i = id then some (ofGraph e.ctx { root := leaf }) else none) :
    (e.assigned id leaf).Coincides (e.substituted image) := by
  refine ⟨?_, t.assign id u, h.assigned id isLeaf hleaf, h.substituted fun i _ => ?_⟩
  · rw [(relabels_assigned e id leaf).ctx_eq, ctx_substituted]
    intro i _ other hother
    rw [single] at hother
    split at hother
    · obtain rfl := Option.some.inj hother
      rfl
    · cases hother
  · rw [single]
    by_cases hi : i = id
    · rw [if_pos hi, if_pos hi]
      exact .inl ⟨_, rfl, hleaf⟩
    · rw [if_neg hi, if_neg hi]
      exact .inr ⟨rfl, rfl⟩

/-- Moving all variables up is replacing each of them by the one that is higher. -/
theorem shifted_coincides (h : e.Denotes t) (n : Nat)
    (moves : ∀ id ∈ t.vars, image id = some (.free e.ctx (id + n))) :
    (e.shifted n).Coincides (e.substituted image) := by
  refine ⟨?_, t.shift n, h.shifted n, h.substituted fun id hid => .inl ⟨_, moves id hid, .free _⟩⟩
  rw [(relabels_shifted e n).ctx_eq, ctx_substituted]
  intro id hroot other hother
  have hid : id ∈ t.vars := by
    rw [Denotes, hroot] at h
    cases h
    exact Term.mem_vars_var.2 rfl
  obtain rfl := Option.some.inj ((moves id hid).symm.trans hother)
  rfl

theorem constant_eq_ok_iff {ctx : Context} {symbol : Nat} :
    constant ctx symbol = .ok e ↔
      ctx.signature.declares symbol 0 = true ∧ e = ofGraph ctx { root := .const symbol } := by
  refine ⟨of_constant_ok, ?_⟩
  rintro ⟨known, rfl⟩
  obtain ⟨s, hs, -⟩ := Signature.declares_iff.1 known
  have hname : ctx.nameOf symbol = .ok s.name := by
    rw [Context.nameOf, Signature.name?, hs]
    rfl
  exact bind_eq_ok.2 ⟨0, Context.arityOf_eq_ok_iff.2 known, bind_eq_ok.2 ⟨s.name, hname, rfl⟩⟩

theorem freeToConst_eq_ok_iff {id symbol : Nat} :
    e.freeToConst id symbol = .ok e' ↔
      e.ctx.signature.declares symbol 0 = true ∧ e.Fits ∧ e' = e.assigned id (.const symbol) := by
  refine ⟨of_freeToConst_ok, ?_⟩
  rintro ⟨known, assigned⟩
  exact bind_eq_ok.2 ⟨0, Context.arityOf_eq_ok_iff.2 known, assignFree_eq_ok_iff.2 assigned⟩

/-- **Substitution is simultaneous.** Let the records that the root of an expression reaches lead in
no circle and have arguments, and let the variables fit into one row; records may be shared, and
others may be out of reach. Replacing variables by expressions without circles succeeds and gives
the term with all occurrences replaced at once, whatever variables the images have. So replacing
twice is replacing by the composite. Relabelling a variable by another one or by a constant, and
moving all variables up, are replacing by the variable, by the constant and by the variables that
are higher. A symbol that is no constant is refused, and so is moving a variable out of the words.
-/
theorem replacing_is_substitution (acyclic : e.graph.IsAcyclic) (fit : DenseSet.FitRow e.term.vars)
    (covered : Vocabulary.plain.Covers e.term) :
    (∀ images, e.Admits images →
      ∃ e', e.mapFree images = .ok e' ∧ e'.Denotes (e.term.subst (terms images))) ∧
    (∀ first second composite e₁, e.Admits first → e.mapFree first = .ok e₁ → e₁.Admits second →
      e.Composes first second composite →
        (DenseSet.FitRow e₁.term.vars → Vocabulary.plain.Covers e₁.term →
          ∃ e₂, e₁.mapFree second = .ok e₂) ∧
        ∀ e₂, e₁.mapFree second = .ok e₂ →
          ∃ e', e.mapFree composite = .ok e' ∧ e₂.Coincides e') ∧
    (∀ id other images,
      (∀ i, images.lookup i = if i = id then some (.free e.ctx other) else none) →
        ∃ e₁ e₂, e.freeToFree id other = .ok e₁ ∧ e.mapFree images = .ok e₂ ∧ e₁.Coincides e₂) ∧
    (∀ id symbol,
      (∀ value images, constant e.ctx symbol = .ok value →
        (∀ i, images.lookup i = if i = id then some value else none) →
          ∃ e₁ e₂, e.freeToConst id symbol = .ok e₁ ∧ e.mapFree images = .ok e₂ ∧
            e₁.Coincides e₂) ∧
      ((∀ value, constant e.ctx symbol ≠ .ok value) → ∀ e', e.freeToConst id symbol ≠ .ok e')) ∧
    ∀ n, ((∃ e', e.shift n = .ok e') ↔ n = 0 ∨ e.term.vars = [] ∨ e.StaysInWords n) ∧
      ∀ e₁ images, e.shift n = .ok e₁ →
        (∀ id ∈ e.term.vars, images.lookup id = some (.free e.ctx (id + n))) →
          ∃ e₂, e.mapFree images = .ok e₂ ∧ e₁.Coincides e₂ := by
  have h := denotes_term acyclic
  have fits : e.Fits := ⟨h, fit⟩
  have hmap : ∀ images, e.mapFree images = .ok (e.substituted images.lookup) := fun images =>
    mapFree_eq_ok_iff.2 ⟨fun _ => ⟨fits, fun _ _ _ => covered⟩, rfl⟩
  refine ⟨fun images admits => ⟨_, hmap images, ?_⟩, ?_, ?_, fun id symbol => ⟨?_, ?_⟩,
    fun n => ⟨?_, ?_⟩⟩
  · exact h.substituted_lookup fun id hid image himage => denotes_term (admits id hid image himage)
  · intro first second composite e₁ admits hfirst admits' composes
    obtain rfl := Except.ok.inj ((hmap first).symm.trans hfirst)
    have denoted : ∀ id ∈ e.term.vars, ∀ other, first.lookup id = some other →
        other.Denotes other.term := fun id hid other hother =>
      denotes_term (admits id hid other hother)
    have hdenotes := h.substituted_imageTerm denoted
    refine ⟨fun fit' covered' => ⟨_, mapFree_eq_ok_iff.2 ⟨fun _ => ⟨⟨hdenotes.denotes_term, fit'⟩,
      fun _ _ _ => covered'⟩, rfl⟩⟩, fun e₂ hsecond => ⟨_, hmap composite, ?_⟩⟩
    obtain ⟨-, rfl⟩ := mapFree_eq_ok_iff.1 hsecond
    refine substituted_coincides h (fun id hid => ?_) denoted fun id hid other hother => ?_
    · obtain ⟨hbound, hfree⟩ := composes id hid
      cases hother : first.lookup id with
      | none => exact hfree hother
      | some other =>
        obtain ⟨image, himage, hcomposite⟩ := hbound other hother
        rw [hcomposite, (mapFree_eq_ok_iff.1 himage).2]
        rfl
    · rw [← hdenotes.term_eq] at hid
      exact denotes_term (admits' id hid other hother)
  · intro id other images single
    refine ⟨_, _, assignFree_eq_ok_iff.2 ⟨fits, rfl⟩, hmap images, ?_⟩
    exact assigned_coincides h id (by simp [Node.kind]) (.free other) single
  · intro value images hvalue single
    obtain ⟨known, rfl⟩ := constant_eq_ok_iff.1 hvalue
    refine ⟨_, _, freeToConst_eq_ok_iff.2 ⟨known, fits, rfl⟩, hmap images, ?_⟩
    exact assigned_coincides h id (by simp [Node.kind]) (.const symbol) single
  · intro hnone e' he'
    exact hnone _ (constant_eq_ok_iff.2 ⟨(of_freeToConst_ok he').1, rfl⟩)
  · constructor
    · rintro ⟨e', he'⟩
      exact (shift_eq_ok_iff.1 he').1.imp_right And.right
    · intro hwords
      exact ⟨_, shift_eq_ok_iff.2 ⟨hwords.imp_right (And.intro fits), rfl⟩⟩
  · intro e₁ images he₁ moves
    obtain ⟨-, rfl⟩ := shift_eq_ok_iff.1 he₁
    exact ⟨_, hmap images, shifted_coincides h n moves⟩

/-- The variable is bound to the expression itself, so that the image has it again. -/
def bindingDoubled : DenseMap Expression := DenseMap.empty.bound 0 doubled

/-- The variable is bound to what the binding makes of the expression. -/
def bindingNested : DenseMap Expression :=
  DenseMap.empty.bound 0 (doubled.substituted bindingDoubled.lookup)

theorem lookup_single (value : Expression) (id i : Nat) :
    (DenseMap.empty.bound id value).lookup i = if i = id then some value else none := by
  rw [DenseMap.lookup_bound]
  simp [DenseMap.lookup, DenseMap.empty]

theorem covers_pair {t : Term} (covered : Vocabulary.plain.Covers t) :
    Vocabulary.plain.Covers (.app 0 [.app 1 [t], .app 1 [t]]) := by
  have hpart : Vocabulary.plain.Covers (.app 1 [t]) := by
    refine .app (Nat.succ_pos 0) fun u hu => ?_
    obtain rfl := List.mem_singleton.1 hu
    exact covered
  refine .app (Nat.succ_pos 1) fun u hu => ?_
  obtain rfl : u = .app 1 [t] := by simpa using hu
  exact hpart

/-- The variable is replaced by the expression that has it, twice and at once, by another variable
and by the one that is four higher. The second symbol is no constant. -/
theorem replacing_is_substitution_doubled :
    (∃ e₁, doubled.mapFree bindingDoubled = .ok e₁ ∧
      e₁.Denotes (.app 0 [.app 1 [doubled.term], .app 1 [doubled.term]]) ∧
      ∃ e₂ e', e₁.mapFree bindingDoubled = .ok e₂ ∧ doubled.mapFree bindingNested = .ok e' ∧
        e₂.Coincides e') ∧
    (∃ e₁ e₂, doubled.freeToFree 0 7 = .ok e₁ ∧
      doubled.mapFree (DenseMap.empty.bound 0 (.free doubled.ctx 7)) = .ok e₂ ∧
        e₁.Coincides e₂) ∧
    (∃ e', doubled.shift 4 = .ok e') ∧ ∀ e', doubled.freeToConst 0 1 ≠ .ok e' := by
  have hfit : DenseSet.FitRow doubled.term.vars := DenseSet.fitRow_of_isNarrow (by decide)
  have hcovered : Vocabulary.plain.Covers doubled.term := covers_pair (.var 0)
  have hadmits : ∀ e : Expression, e.Admits bindingDoubled := by
    intro e id _ image himage
    rw [bindingDoubled, lookup_single] at himage
    split at himage
    · obtain rfl := Option.some.inj himage
      exact isAcyclic_doubled
    · cases himage
  obtain ⟨hmap, htwice, hfree, hconst, hshift⟩ :=
    replacing_is_substitution isAcyclic_doubled hfit hcovered
  obtain ⟨e₁, he₁, hdenotes⟩ := hmap bindingDoubled (hadmits _)
  have hterm : doubled.term.subst (terms bindingDoubled) =
      .app 0 [.app 1 [doubled.term], .app 1 [doubled.term]] := by decide
  rw [hterm] at hdenotes
  have hcomposes : doubled.Composes bindingDoubled bindingDoubled bindingNested := by
    intro id hid
    obtain rfl : id = 0 := by
      revert id
      decide
    have hself : bindingDoubled.lookup 0 = some doubled := lookup_single doubled 0 0
    refine ⟨fun image himage => ?_, fun hnone => ?_⟩
    · obtain rfl := Option.some.inj (hself.symm.trans himage)
      refine ⟨e₁, he₁, ?_⟩
      rw [(mapFree_eq_ok_iff.1 he₁).2]
      exact lookup_single _ 0 0
    · cases hself.symm.trans hnone
  obtain ⟨hcan, hcoincide⟩ := htwice _ _ _ e₁ (hadmits _) he₁ (hadmits _) hcomposes
  have hnarrow : DenseMap.IsNarrow e₁.term.vars := by
    rw [hdenotes.term_eq]
    decide
  obtain ⟨e₂, he₂⟩ := hcan (DenseSet.fitRow_of_isNarrow hnarrow)
    (hdenotes.term_eq ▸ covers_pair hcovered)
  obtain ⟨e', he', hsame⟩ := hcoincide e₂ he₂
  refine ⟨⟨e₁, he₁, hdenotes, e₂, e', he₂, he', hsame⟩, hfree 0 7 _ (lookup_single _ 0),
    (hshift 4).1.2 ?_, (hconst 0 1).2 ?_⟩
  · refine .inr (.inr ?_)
    rw [StaysInWords]
    decide
  · intro value hvalue
    exact absurd (of_constant_ok hvalue).1 (by decide)

/-- An expression whose variables are the first and the last one of all cannot be edited, and the
last variable cannot be moved up. -/
theorem replacing_is_substitution_not_apart :
    apart.graph.IsAcyclic ∧ Vocabulary.plain.Covers apart.term ∧
      (∀ images, apart.mapFree images = .error .rowTooLong) ∧
      (∀ id other, apart.freeToFree id other = .error .rowTooLong) ∧
      (∀ n, 0 < n → apart.shift n = .error .rowTooLong) ∧
      (free .paired 18446744073709551615).shift 1 = .error .counterOverflow := by
  refine ⟨isAcyclic_apart, covers_apart, fun images => rfl, fun id other => rfl, fun n hn => ?_,
    rfl⟩
  rw [shift, if_neg (Nat.ne_of_gt hn)]
  rfl

end Expression

end Equational
