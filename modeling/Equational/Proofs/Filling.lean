import Equational.Proofs.Editing

/-!
# Filling in variables

A variable is replaced by copying the records of its image to the end of the table, and the copies
are not looked into again. They stay as they are while the other records are dealt with, so a node
that names a copy is *settled*: it stores the term of the image in every table that comes later.
Once all records are dealt with the root stores the old term with all variables replaced at once
(`stores_fill`), whatever variables the images have.
-/

namespace Equational

namespace TermGraph

variable {g g' other : TermGraph} {node node' : Node} {t : Term} {low : Nat}
  {image : Nat → Option TermGraph}

/-! ### Copies -/

/-- The node stores the term, and goes on to do so as long as the records from `low` on are kept. -/
def Settled (g : TermGraph) (low : Nat) (node : Node) (t : Term) : Prop :=
  ∀ g', g.KeepsFrom low g' → g'.Stores node t

theorem Settled.stores (h : g.Settled low node t) : g.Stores node t := h g (.refl g low)

theorem Settled.mono (h : g.Settled low node t) (kept : g.KeepsFrom low g') :
    g'.Settled low node t :=
  fun g'' kept' => h g'' (kept.trans kept')

theorem Stores.offset (h : other.Stores node t) {n : Nat}
    (copied : ∀ (index : Nat) (r : Record), other.records[index]? = some r →
      g.records[index + n]? = some (r.offset n)) : g.Stores (node.offset n) t := by
  induction h with
  | free id => exact .free id
  | const symbol => exact .const symbol
  | @func index r term found _ ih =>
    refine stores_func_iff.2 ⟨r.offset n, r.args.map term, copied index r found, rfl, ?_⟩
    exact List.forall₂_map_left_iff.2 (List.forall₂_map_right_iff.2 (List.forall₂_same.2 ih))

theorem keepsFrom_absorb (g other : TermGraph) : g.KeepsFrom 0 (g.absorb other).2 := by
  rw [absorb]
  split
  · intro index r _ found
    have hlt : index < g.records.size := (Array.getElem?_eq_some_iff.1 found).1
    exact (Array.getElem?_append_left hlt).trans found
  · exact .refl g 0

theorem absorb_of_func {index : Nat} (root : other.root = .func index) :
    g.absorb other = (other.root.offset g.size,
      { g with records := g.records ++ other.records.map (Record.offset g.size) }) := by
  rw [absorb, root]
  rfl

theorem absorb_of_leaf (leaf : ∀ index, other.root ≠ .func index) :
    g.absorb other = (other.root, g) := by
  rw [absorb]
  split
  next index root => exact absurd root (leaf index)
  next => rfl

theorem getElem?_absorb {index j : Nat} {r : Record} (root : other.root = .func index)
    (found : other.records[j]? = some r) :
    (g.absorb other).2.records[j + g.size]? = some (r.offset g.size) := by
  rw [absorb_of_func root]
  show (g.records ++ other.records.map (Record.offset g.size))[j + g.records.size]? = _
  rw [Array.getElem?_append_right (Nat.le_add_left _ _), Nat.add_sub_cancel, Array.getElem?_map,
    found]
  rfl

theorem settled_absorb (le : low ≤ g.size) (h : other.Stores other.root t) :
    (g.absorb other).2.Settled low (g.absorb other).1 t := by
  intro g' kept
  by_cases root : ∃ index, other.root = .func index
  · obtain ⟨index, root⟩ := root
    have copied : g'.Stores (other.root.offset g.size) t := h.offset fun j r found =>
      kept _ _ (Nat.le_trans le (Nat.le_add_left _ _)) (getElem?_absorb root found)
    rw [absorb_of_func root]
    exact copied
  · have leaf := not_exists.1 root
    rw [absorb_of_leaf leaf]
    exact h.of_leaf leaf

/-! ### One record after the other -/

/-- What becomes of an argument: a variable with an image gives way to a node that is settled on
what the image stores, and everything else stays. -/
inductive Filled (image : Nat → Option TermGraph) (g : TermGraph) (low : Nat) : Node → Node → Prop
  | image {id : Nat} {other : TermGraph} {node : Node} (has : image id = some other)
      (settled : ∀ t, other.Stores other.root t → g.Settled low node t) :
      Filled image g low (.free id) node
  | free {id : Nat} (none : image id = none) : Filled image g low (.free id) (.free id)
  | const (symbol : Nat) : Filled image g low (.const symbol) (.const symbol)
  | func (index : Nat) : Filled image g low (.func index) (.func index)

theorem Filled.mono (h : Filled image g low node node') (kept : g.KeepsFrom low g') :
    Filled image g' low node node' := by
  cases h with
  | image has settled => exact .image has fun t ht => (settled t ht).mono kept
  | free none => exact .free none
  | const symbol => exact .const symbol
  | func index => exact .func index

/-- What filling in the arguments of a record comes to. -/
structure FillsArgs (image : Nat → Option TermGraph) (g : TermGraph) (low : Nat) (args : List Node)
    (result : List Node × TermGraph) : Prop where
  kept : g.KeepsFrom 0 result.2
  root : result.2.root = g.root
  args : List.Forall₂ (Filled image result.2 low) args result.1

theorem fillsArgs_fillArgs (image : Nat → Option TermGraph) (args : List Node) (le : low ≤ g.size) :
    FillsArgs image g low args (fillArgs image args g) := by
  induction args generalizing g with
  | nil => exact ⟨.refl g 0, rfl, .nil⟩
  | cons arg args ih =>
    cases arg with
    | const symbol => exact ⟨(ih le).kept, (ih le).root, .cons (.const symbol) (ih le).args⟩
    | func index => exact ⟨(ih le).kept, (ih le).root, .cons (.func index) (ih le).args⟩
    | free id =>
      rw [fillArgs]
      split
      next other has =>
        have hkept := keepsFrom_absorb g other
        have hrest := ih (g := (g.absorb other).2) (Nat.le_trans le hkept.size_le)
        refine ⟨hkept.trans hrest.kept, hrest.root.trans (root_absorb g other), ?_⟩
        refine .cons (.image has fun t ht => ?_) hrest.args
        exact (settled_absorb le ht).mono fun i r _ found => hrest.kept i r (Nat.zero_le _) found
      next none => exact ⟨(ih le).kept, (ih le).root, .cons (.free none) (ih le).args⟩

/-- What filling in `count` records from `first` on comes to: these keep their symbols, and no other
record changes. -/
structure FillsRecords (image : Nat → Option TermGraph) (g : TermGraph) (low first count : Nat)
    (result : TermGraph) : Prop where
  root : result.root = g.root
  others : ∀ (index : Nat) (r : Record), index < first ∨ first + count ≤ index →
    g.records[index]? = some r → result.records[index]? = some r
  filled : ∀ (index : Nat) (r : Record), first ≤ index → index < first + count →
    g.records[index]? = some r → ∃ args, result.records[index]? = some ⟨r.symbol, args⟩ ∧
      List.Forall₂ (Filled image result low) r.args args

/-- The first record is dealt with, and then the others. -/
theorem FillsRecords.cons {first count : Nat} {record : Record} {args : List Node}
    {g₁ result : TermGraph} (found : g.records[first]? = some record)
    (here : FillsArgs image g low record.args (args, g₁))
    (rest : FillsRecords image
      { g₁ with records := g₁.records.setIfInBounds first ⟨record.symbol, args⟩ } low (first + 1)
      count result)
    (below : first + (count + 1) ≤ low) : FillsRecords image g low first (count + 1) result := by
  obtain ⟨hkept, hroot, hargs⟩ := here
  obtain ⟨hroot', hothers, hfilled⟩ := rest
  have hset : ∀ (index : Nat) (r : Record), index ≠ first → g₁.records[index]? = some r →
      (g₁.records.setIfInBounds first ⟨record.symbol, args⟩)[index]? = some r := by
    intro index r hne found
    rw [Array.getElem?_setIfInBounds_ne hne.symm]
    exact found
  refine ⟨hroot'.trans hroot, ?_, ?_⟩
  · intro index r hindex found
    exact hothers index r (by omega) (hset index r (by omega) (hkept index r (Nat.zero_le _) found))
  · intro index r hle hlt found'
    by_cases heq : index = first
    · subst heq
      obtain rfl := Option.some.inj (found'.symm.trans found)
      have hbound : index < g₁.records.size :=
        (Array.getElem?_eq_some_iff.1 (hkept index r (Nat.zero_le _) found)).1
      refine ⟨args, hothers index _ (by omega) (Array.getElem?_setIfInBounds_self_of_lt hbound), ?_⟩
      -- The copies lie beyond the records that are still to be dealt with.
      have hcopies : g₁.KeepsFrom low result := fun j r hj found =>
        hothers j r (by omega) (hset j r (by omega) found)
      exact hargs.imp fun _ _ h => h.mono hcopies
    · exact hfilled index r (by omega) (by omega)
        (hset index r heq (hkept index r (Nat.zero_le _) found'))

theorem fillsRecords_fillRecords (image : Nat → Option TermGraph) {first count : Nat}
    (below : first + count ≤ low) (le : low ≤ g.size) :
    FillsRecords image g low first count (fillRecords image count first g) := by
  induction count generalizing first g with
  | zero => exact ⟨rfl, fun _ _ _ found => found, fun _ _ _ _ _ => by omega⟩
  | succ count ih =>
    have hfirst : first < g.records.size := Nat.lt_of_lt_of_le (by omega) le
    rw [fillRecords]
    split
    next none => simp [hfirst] at none
    next record found =>
      have here := fillsArgs_fillArgs image record.args le
      refine .cons found here (ih (by omega) ?_) below
      show low ≤ Array.size _
      rw [Array.size_setIfInBounds]
      exact Nat.le_trans le here.kept.size_le

/-! ### The whole table -/

theorem Stores.fill (h : g.Stores node t) {σ : Nat → Term}
    (filled : ∀ (index : Nat) (r : Record), g.records[index]? = some r → ∃ args,
      g'.records[index]? = some ⟨r.symbol, args⟩ ∧
        List.Forall₂ (Filled image g' low) r.args args)
    (images : ∀ id ∈ t.vars, (∃ other, image id = some other ∧ other.Stores other.root (σ id)) ∨
      image id = none ∧ σ id = .var id)
    (becomes : Filled image g' low node node') : g'.Stores node' (t.bind σ) := by
  induction h generalizing node' with
  | free id =>
    have hid := images id (Term.mem_vars_var.2 rfl)
    rw [Term.bind_var]
    cases becomes with
    | image has settled =>
      obtain ⟨other, has', hother⟩ | ⟨none, -⟩ := hid
      · obtain rfl := Option.some.inj (has.symm.trans has')
        exact (settled _ hother).stores
      · simp [has] at none
    | free none =>
      obtain ⟨other, has, -⟩ | ⟨-, hvar⟩ := hid
      · simp [has] at none
      · rw [hvar]
        exact .free id
  | const symbol =>
    cases becomes
    exact .const symbol
  | @func index r term found _ ih =>
    cases becomes
    obtain ⟨args, found', hargs⟩ := filled index r found
    rw [Term.bind_app, List.map_map]
    refine stores_func_iff.2 ⟨_, _, found', rfl, List.forall₂_map_right_iff.2 ?_⟩
    have hstores : ∀ arg ∈ r.args, ∀ arg', Filled image g' low arg arg' →
        g'.Stores arg' ((term arg).bind σ) := by
      intro arg harg arg' hbecomes
      refine ih arg harg (fun id hid => images id ?_) hbecomes
      exact Term.mem_vars_app.2 ⟨_, List.mem_map_of_mem harg, hid⟩
    have hboth := (List.forall₂_and_left r.args args).2 ⟨hstores, hargs⟩
    exact (hboth.imp fun arg arg' h => h.1 arg' h.2).flip

theorem stores_ofTerm (t : Term) : (ofTerm t).Stores (ofTerm t).root t := by
  have hof := isOf_ofTerm (Vocabulary.any_covers t)
  have hstores := (isOrdered_ofTerm t).stores_termAt hof.records (holds_of_allows hof.root)
  rwa [show (ofTerm t).termAt (ofTerm t).root = t from term_ofTerm t] at hstores

theorem isAcyclic_ofTerm (t : Term) : (ofTerm t).IsAcyclic := by
  have hof := isOf_ofTerm (Vocabulary.any_covers t)
  exact (stores_ofTerm t).isAcyclic fun r hr node hnode =>
    holds_of_allows ((hof.records r hr).2 node hnode)

/-- **Variables are replaced all at once.** -/
theorem stores_fill {index : Nat} (root : g.root = .func index) (h : g.Stores g.root t)
    {σ : Nat → Term}
    (images : ∀ id ∈ t.vars, (∃ other, image id = some other ∧ other.Stores other.root (σ id)) ∨
      image id = none ∧ σ id = .var id) :
    (g.fill image).Stores (g.fill image).root (t.bind σ) := by
  obtain ⟨hroot, -, hfilled⟩ :=
    fillsRecords_fillRecords image (Nat.le_of_eq (Nat.zero_add g.size)) (Nat.le_refl _)
  rw [TermGraph.fill, hroot]
  refine h.fill (fun j r found => hfilled j r (Nat.zero_le _) ?_ found) images ?_
  · rw [Nat.zero_add]
    exact (Array.getElem?_eq_some_iff.1 found).1
  · rw [root]
    exact .func index

end TermGraph

namespace Expression

variable {e : Expression} {t : Term} {image : Nat → Option Expression}

theorem Denotes.root_eq_free {id : Nat} (h : e.Denotes (.var id)) : e.graph.root = .free id := by
  rw [Denotes] at h
  generalize e.graph.root = root at h ⊢
  cases h
  rfl

theorem Denotes.root_eq_const {symbol : Nat} (h : e.Denotes (.const symbol)) :
    e.graph.root = .const symbol := by
  rw [Denotes] at h
  generalize e.graph.root = root at h ⊢
  cases h
  rfl

theorem Denotes.root_eq_func {symbol : Nat} {args : List Term} (h : e.Denotes (.app symbol args)) :
    ∃ index, e.graph.root = .func index := by
  rw [Denotes] at h
  generalize e.graph.root = root at h ⊢
  cases h
  exact ⟨_, rfl⟩

theorem Denotes.substituted (h : e.Denotes t) {σ : Nat → Term}
    (bound : ∀ id ∈ t.vars, (∃ other, image id = some other ∧ other.Denotes (σ id)) ∨
      image id = none ∧ σ id = .var id) : (e.substituted image).Denotes (t.bind σ) := by
  rw [Expression.substituted, h.term_eq]
  cases t with
  | var id =>
    rw [h.root_eq_free, Term.bind_var]
    dsimp only
    rcases bound id (Term.mem_vars_var.2 rfl) with ⟨other, hother, denotes⟩ | ⟨hnone, hvar⟩
    · rw [hother]
      exact denotes
    · rw [hnone, hvar]
      exact h
  | const symbol =>
    rw [h.root_eq_const]
    exact h
  | app symbol args =>
    obtain ⟨index, root⟩ := h.root_eq_func
    rw [root]
    dsimp only
    split
    next =>
      refine TermGraph.stores_fill rfl (TermGraph.stores_ofTerm _) fun id hid => ?_
      rcases bound id hid with ⟨other, hother, denotes⟩ | ⟨hnone, hvar⟩
      · exact .inl ⟨other.graph, by rw [hother]; rfl, denotes⟩
      · exact .inr ⟨by rw [hnone]; rfl, hvar⟩
    next hidle =>
      rw [Term.bind_eq_self]
      · exact h
      · intro id hid
        rcases bound id hid with ⟨other, hother, -⟩ | ⟨-, hvar⟩
        · exact absurd (List.any_eq_true.2 ⟨id, hid, by rw [hother]; rfl⟩) hidle
        · exact hvar

/-- The substitution that a map of expressions stands for. -/
def terms (images : DenseMap Expression) : Substitution := images.toIdMap.map term

theorem get?_terms (images : DenseMap Expression) (id : Nat) :
    (terms images).get? id = (images.lookup id).map term := by
  rw [terms, IdMap.get?_map, DenseMap.get?_toIdMap]

theorem image_terms (images : DenseMap Expression) (id : Nat) :
    (terms images).image id = (images.lookup id).elim (.var id) term := by
  rw [Substitution.image, get?_terms]
  cases images.lookup id with
  | none => rfl
  | some other => rfl

theorem Denotes.substituted_lookup (h : e.Denotes t) {images : DenseMap Expression}
    (denoted : ∀ id ∈ t.vars, ∀ other, images.lookup id = some other → other.Denotes other.term) :
    (e.substituted images.lookup).Denotes (t.subst (terms images)) := by
  refine h.substituted fun id hid => ?_
  rw [image_terms]
  cases hother : images.lookup id with
  | some other => exact .inl ⟨other, rfl, denoted id hid other hother⟩
  | none => exact .inr ⟨rfl, rfl⟩

end Expression

namespace Statement

theorem isAcyclic_ofEquation (ctx : Context) (e : Equation) : (ofEquation ctx e).IsAcyclic :=
  ⟨TermGraph.isAcyclic_ofTerm e.lhs, TermGraph.isAcyclic_ofTerm e.rhs⟩

theorem denotes_ofEquation (ctx : Context) (e : Equation) : (ofEquation ctx e).Denotes e :=
  ⟨TermGraph.stores_ofTerm e.lhs, TermGraph.stores_ofTerm e.rhs⟩

end Statement

end Equational
