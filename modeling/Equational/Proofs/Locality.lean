import Equational.Proofs.Forest

/-!
# Replacing touches one occurrence

The positions of an expression are its occurrences, one for one and in the same order: each is held
by the slot that the way to the occurrence goes through last (`Stores.forall₂_positions`). A slot
knows nothing of the ways that lead to it, so replacing what it holds is replacing one occurrence
exactly if there is one way. This is so for every expression that is built by operations on
expressions (`Expression.Assembled`), since its table is a forest (`Assembled.isTree`), however
often the same expression was substituted and whatever records are out of reach.
-/

namespace Equational

namespace TermGraph

variable {g g' : TermGraph} {node : Node} {t u : Term} {path : List Nat}

/-! ### Positions -/

/-- The position is where the way from a start ends. It knows the slot that the way goes through
last. -/
def StandsAt (g : TermGraph) (start : Position) (path : List Nat) (p : Position) : Prop :=
  path = [] ∧ p = start ∨
    ∃ above index i r, path = above ++ [i] ∧ g.Leads start.node above (.func index) ∧
      g.records[index]? = some r ∧ r.args[i]? = some p.node ∧ p.slot = some (index, i)

theorem StandsAt.down {index i : Nat} {r : Record} {arg : Node} {p : Position}
    (found : g.records[index]? = some r) (nth : r.args[i]? = some arg)
    (h : g.StandsAt ⟨arg, some (index, i)⟩ path p) (slot : Option (Nat × Nat)) :
    g.StandsAt ⟨.func index, slot⟩ (i :: path) p := by
  obtain ⟨rfl, rfl⟩ | ⟨above, j, k, r', rfl, way, found', nth', hslot⟩ := h
  · exact .inr ⟨[], index, i, r, rfl, .here _, found, nth, rfl⟩
  · exact .inr ⟨i :: above, j, k, r', rfl, .down found nth way, found', nth', hslot⟩

theorem StandsAt.leads {start p : Position} (h : g.StandsAt start path p) :
    g.Leads start.node path p.node := by
  obtain ⟨rfl, rfl⟩ | ⟨above, index, i, r, rfl, way, found, nth, -⟩ := h
  · exact .here _
  · exact way.append (.down found nth (.here _))

/-- What the slot of a position says of the way to it. -/
theorem StandsAt.of_slot {p : Position} (h : g.StandsAt ⟨node, none⟩ path p) {index i : Nat}
    (slot : p.slot = some (index, i)) :
    g.EndsIn node index i path ∧ ∃ r, g.records[index]? = some r ∧ r.args[i]? = some p.node := by
  rcases h with ⟨-, rfl⟩ | ⟨above, index', i', r, hpath, way, found, nth, hslot⟩
  · cases slot
  · obtain ⟨rfl, rfl⟩ := Prod.mk.inj (Option.some.inj (slot.symm.trans hslot))
    exact ⟨⟨above, hpath, way⟩, r, found, nth⟩

theorem StandsAt.eq_nil {p : Position} (h : g.StandsAt ⟨node, none⟩ path p)
    (slot : p.slot = none) : path = [] := by
  rcases h with ⟨hpath, -⟩ | ⟨_, _, _, _, -, -, -, -, hslot⟩
  · exact hpath
  · cases slot.symm.trans hslot

theorem StandsAt.lt_size {p : Position} (h : g.StandsAt ⟨node, none⟩ path p) {index i : Nat}
    (slot : p.slot = some (index, i)) : index < g.size := by
  obtain ⟨-, r, found, -⟩ := h.of_slot slot
  exact (Array.getElem?_eq_some_iff.1 found).1

/-- The position stands where the occurrence does, and stores the subterm. -/
def Marks (g : TermGraph) (start p : Position) (o : Occurrence) : Prop :=
  g.StandsAt start o.path p ∧ g.Stores p.node o.term

theorem positionsFrom_func {index : Nat} {r : Record} (found : g.records[index]? = some r)
    (depth : Nat) (slot : Option (Nat × Nat)) :
    g.positionsFrom (depth + 1) ⟨.func index, slot⟩ = ⟨.func index, slot⟩ ::
      r.args.zipIdx.flatMap fun (node, i) => g.positionsFrom depth ⟨node, some (index, i)⟩ := by
  rw [positionsFrom]
  exact found

theorem forall₂_positions_args {index : Nat} {r : Record} (found : g.records[index]? = some r)
    (slot : Option (Nat × Nat)) {depth n : Nat} {args : List Node} {ts : List Term}
    (nth : ∀ i arg, args[i]? = some arg → r.args[n + i]? = some arg)
    (each : List.Forall₂ (fun arg t => ∀ slot, List.Forall₂ (g.Marks ⟨arg, slot⟩)
      (g.positionsFrom depth ⟨arg, slot⟩) t.occurrences) args ts) :
    List.Forall₂ (g.Marks ⟨.func index, slot⟩)
      ((args.zipIdx n).flatMap fun (node, i) => g.positionsFrom depth ⟨node, some (index, i)⟩)
      (Term.occurrencesArgs n ts) := by
  induction each generalizing n with
  | nil => exact .nil
  | @cons arg t args ts first _ ih =>
    rw [List.zipIdx_cons, List.flatMap_cons, Term.occurrencesArgs]
    refine List.rel_append (List.forall₂_map_right_iff.2 ?_) (ih fun i arg harg => ?_)
    · refine (first (some (index, n))).imp fun p o h => ⟨?_, h.2⟩
      exact h.1.down found (nth 0 arg rfl) slot
    · rw [Nat.add_assoc, Nat.add_comm 1]
      exact nth (i + 1) arg harg

/-- **The positions are the occurrences**, one for one and in the same order. -/
theorem Stores.forall₂_positions (h : g.Stores node t) {depth : Nat} (deep : t.levels ≤ depth)
    (slot : Option (Nat × Nat)) :
    List.Forall₂ (g.Marks ⟨node, slot⟩) (g.positionsFrom depth ⟨node, slot⟩) t.occurrences := by
  induction h generalizing depth slot with
  | free id =>
    rw [positionsFrom, Term.occurrences]
    · exact .cons ⟨.inl ⟨rfl, rfl⟩, .free id⟩ .nil
    · simp
  | const symbol =>
    rw [positionsFrom, Term.occurrences]
    · exact .cons ⟨.inl ⟨rfl, rfl⟩, .const symbol⟩ .nil
    · simp
  | @func index r term found args ih =>
    rw [Term.levels, Nat.add_comm] at deep
    cases depth with
    | zero => omega
    | succ depth =>
      rw [positionsFrom_func found, Term.occurrences]
      refine .cons ⟨.inl ⟨rfl, rfl⟩, .func found args⟩ (forall₂_positions_args found slot ?_ ?_)
      · intro i arg harg
        rwa [Nat.zero_add]
      · refine List.forall₂_map_right_iff.2 (List.forall₂_same.2 fun arg harg => ?_)
        refine ih arg harg ?_
        exact Nat.le_trans (Term.levels_le_levelsArgs (List.mem_map_of_mem harg))
          (Nat.le_of_succ_le_succ deep)

/-! ### Slots -/

/-- The slot is within reach of the root, and it holds the record. -/
def InSlot (g : TermGraph) (index i j : Nat) : Prop :=
  ∃ path r, g.Leads g.root path (.func index) ∧ g.records[index]? = some r ∧
    r.args[i]? = some (.func j)

theorem InSlot.unique {index i index' i' j : Nat} (first : g.InSlot index i j)
    (second : g.InSlot index' i' j)
    (ways : ∀ {path path' : List Nat}, g.Leads g.root path (.func j) →
      g.Leads g.root path' (.func j) → path = path') : index = index' ∧ i = i' := by
  obtain ⟨path, r, way, found, nth⟩ := first
  obtain ⟨path', r', way', found', nth'⟩ := second
  have hpath : path ++ [i] = path' ++ [i'] :=
    ways (way.append (.down found nth (.here _))) (way'.append (.down found' nth' (.here _)))
  obtain ⟨rfl, hi⟩ := List.append_inj' hpath rfl
  exact ⟨Node.func.inj (way.unique way'), (List.cons.inj hi).1⟩

theorem IsForest.inSlot_unique (h : g.IsForest) {index i index' i' j : Nat}
    (first : g.InSlot index i j) (second : g.InSlot index' i' j) : index = index' ∧ i = i' :=
  first.unique second h.unique

theorem Stores.endsIn_of_kept {index i : Nat} (stored : g.Stores node t) (kept : g.KeepsFrom 0 g') :
    g'.EndsIn node index i path ↔ g.EndsIn node index i path := by
  constructor
  · rintro ⟨above, rfl, way⟩
    exact ⟨above, rfl, way.of_kept stored kept⟩
  · rintro ⟨above, rfl, way⟩
    exact ⟨above, rfl, way.mono kept⟩

/-- **Replacing touches a slot.** The slot of a position can be given any other graph that stores a
term. The root then stores the old term with the subterms replaced at the end of every path that
ends in the slot. -/
theorem Stores.exists_replaceArg (stored : g.Stores g.root t) {p : Position}
    (stands : g.StandsAt ⟨g.root, none⟩ path p) {index i : Nat} (slot : p.slot = some (index, i))
    {paths : List (List Nat)} (nodup : paths.Nodup)
    (through : ∀ path, path ∈ paths ↔ g.EndsIn g.root index i path) {other : TermGraph}
    (new : other.Stores other.root u) :
    ∃ g', g.replaceArg index i other = .ok g' ∧ g'.Stores g'.root (t.replaceAll paths u) := by
  obtain ⟨-, r, found, nth⟩ := stands.of_slot slot
  have hkept := keepsFrom_absorb g other
  have found' := hkept index r (Nat.zero_le _) found
  have hsettled := settled_absorb (Nat.le_refl g.size) new
  have hredirects := redirects_setRecord found' i (g.absorb other).1
  refine ⟨_, setArg_eq_ok_iff.2 ⟨r, found', (List.getElem?_eq_some_iff.1 nth).1, ?_, rfl⟩, ?_⟩
  · exact hsettled.stores.holds
  · show TermGraph.Stores _ (g.absorb other).2.root _
    rw [root_absorb]
    refine (stored.mono hkept).redirect hredirects ?_ nodup fun path => ?_
    · -- The copy lies beyond the record that is changed.
      refine hsettled _ fun j r' hj found' => ?_
      have hlt : index < g.size := (Array.getElem?_eq_some_iff.1 found).1
      exact (hredirects.others j (by omega)).trans found'
    · rw [through, stored.endsIn_of_kept hkept]

/-- In a forest one path ends in the slot of a position, so replacing touches one occurrence. -/
theorem IsForest.exists_replaceArg (h : g.IsForest) (stored : g.Stores g.root t) {p : Position}
    (stands : g.StandsAt ⟨g.root, none⟩ path p) {index i : Nat} (slot : p.slot = some (index, i))
    {other : TermGraph} (new : other.Stores other.root u) :
    ∃ g', g.replaceArg index i other = .ok g' ∧ g'.Stores g'.root (t.replaceAt path u) := by
  refine stored.exists_replaceArg stands slot (List.nodup_singleton path) (fun path' => ?_) new
  obtain ⟨⟨above, rfl, way⟩, -⟩ := stands.of_slot slot
  rw [List.mem_singleton]
  constructor
  · rintro rfl
    exact ⟨above, rfl, way⟩
  · rintro ⟨above', rfl, way'⟩
    rw [h.unique way' way]

end TermGraph

namespace Expression

variable {e e' : Expression} {t : Term}

/-! ### Expressions by their history -/

/-- The expressions that come from operations that succeed, in whatever contexts. A replacement is
at one of the positions. -/
inductive Assembled : Expression → Prop
  | free (ctx : Context) (id : Nat) : Assembled (.free ctx id)
  | constant {ctx : Context} {symbol : Nat} {e : Expression}
      (ok : Expression.constant ctx symbol = .ok e) : Assembled e
  | func {ctx : Context} {symbol : Nat} {args : List Expression} {e : Expression}
      (each : ∀ arg ∈ args, Assembled arg) (ok : Expression.func ctx symbol args = .ok e) :
      Assembled e
  | ofFormula {ctx : Context} {f : Formula} {e : Expression}
      (ok : Expression.ofFormula ctx f = .ok e) : Assembled e
  | viewAt {e e' : Expression} {node : Node} (made : Assembled e) (ok : e.viewAt node = .ok e') :
      Assembled e'
  | freeToFree {e e' : Expression} {id other : Nat} (made : Assembled e)
      (ok : e.freeToFree id other = .ok e') : Assembled e'
  | freeToConst {e e' : Expression} {id symbol : Nat} (made : Assembled e)
      (ok : e.freeToConst id symbol = .ok e') : Assembled e'
  | shift {e e' : Expression} {n : Nat} (made : Assembled e) (ok : e.shift n = .ok e') :
      Assembled e'
  | compact {e e' : Expression} (made : Assembled e) (ok : e.compact = .ok e') : Assembled e'
  | mapFree {e e' : Expression} {images : DenseMap Expression} (made : Assembled e)
      (each : ∀ id image, images.lookup id = some image → Assembled image)
      (ok : e.mapFree images = .ok e') : Assembled e'
  | replace {e e' new : Expression} {p : Position} (made : Assembled e) (makes : Assembled new)
      (hp : p ∈ e.positions) (ok : e.replace p.slot new = .ok e') : Assembled e'

theorem isTree_of_denotes (forest : e.graph.IsForest) (h : e.Denotes t) : e.graph.IsTree :=
  ⟨forest, h.holds⟩

theorem unshared_gather {args : List Expression} (each : ∀ arg ∈ args, arg.graph.IsTree)
    {g : TermGraph} (h : g.IsForest) : TermGraph.Unshared g (gather args g) := by
  induction args generalizing g with
  | nil => exact h.unshared_nil
  | cons arg args ih =>
    have first := h.unshared_absorb (each arg List.mem_cons_self)
    exact first.cons (ih (fun a ha => each a (List.mem_cons_of_mem _ ha)) first.forest)

theorem isTree_of_func_ok {ctx : Context} {symbol : Nat} {args : List Expression}
    (each : ∀ arg ∈ args, arg.graph.IsTree) (ok : Expression.func ctx symbol args = .ok e) :
    e.graph.IsTree := by
  obtain ⟨-, -, rfl⟩ := of_func_ok ok
  have gathered := unshared_gather each (TermGraph.isForest_of_isEmpty (g := .empty) rfl)
  have pushed : TermGraph.Unshared .empty ([.func (gather args .empty).2.size],
      (gather args .empty).2.extend ⟨symbol, (gather args .empty).1⟩) := gathered.push rfl
  exact ⟨pushed.forest, pushed.held _ List.mem_cons_self⟩

theorem Denotes.forall₂_marks (h : e.Denotes e.term) :
    List.Forall₂ (e.graph.Marks ⟨e.graph.root, none⟩) e.positions e.term.occurrences :=
  h.forall₂_positions h.levels_le_size none

section

variable (h : e.graph.IsTree)
include h

theorem forall₂_marks :
    List.Forall₂ (e.graph.Marks ⟨e.graph.root, none⟩) e.positions e.term.occurrences :=
  Denotes.forall₂_marks h.stores_term

theorem exists_marks {p : Position} (hp : p ∈ e.positions) :
    ∃ o, e.graph.Marks ⟨e.graph.root, none⟩ p o := by
  obtain ⟨n, hn, rfl⟩ := List.getElem_of_mem hp
  obtain ⟨hlength, hmarks⟩ := List.forall₂_iff_get.1 (forall₂_marks h)
  exact ⟨_, hmarks n hn (hlength ▸ hn)⟩

theorem isTree_of_viewAt_ok {node : Node} (ok : e.viewAt node = .ok e') : e'.graph.IsTree := by
  obtain ⟨-, ok⟩ := of_viewAt_ok ok
  refine ⟨h.forest.viewAt ok, ?_⟩
  cases node with
  | free id => rw [← Except.ok.inj ok]; rfl
  | const symbol => rw [← Except.ok.inj ok]; rfl
  | func index =>
    rw [TermGraph.viewAt, TermGraph.setRoot] at ok
    split at ok
    next hlt =>
      rw [← Except.ok.inj ok]
      exact decide_eq_true hlt
    next => cases ok

theorem isTree_assigned (id : Nat) {leaf : Node} {u : Term} (isLeaf : leaf.kind ≠ .func)
    (hleaf : TermGraph.Stores { root := leaf } leaf u) : (e.assigned id leaf).graph.IsTree := by
  refine isTree_of_denotes ?_ (Denotes.assigned h.stores_term id isLeaf hleaf)
  obtain hsame | ⟨label, hlabel, hgraph⟩ := relabels_assigned e id leaf
  · rw [hsame]
    exact h.forest
  · rw [hgraph]
    exact h.forest.relabel fun i other hother => hlabel i other hother ▸ isLeaf

theorem isTree_shifted (n : Nat) : (e.shifted n).graph.IsTree := by
  refine isTree_of_denotes ?_ (Denotes.shifted h.stores_term n)
  obtain hsame | ⟨label, hlabel, hgraph⟩ := relabels_shifted e n
  · rw [hsame]
    exact h.forest
  · rw [hgraph]
    refine h.forest.relabel fun id leaf hleaf => ?_
    obtain ⟨other, rfl⟩ := hlabel id leaf hleaf
    exact (by decide : NodeKind.free ≠ .func)

theorem isTree_compacted : e.compacted.graph.IsTree := by
  rw [graph_compacted]
  refine ⟨h.forest.compacted, ?_⟩
  rw [TermGraph.compacted]
  split
  · exact (TermGraph.stores_ofTerm e.graph.term).holds
  · exact h.root

theorem isTree_substituted {image : Nat → Option Expression}
    (each : ∀ id other, image id = some other → other.graph.IsTree) :
    (e.substituted image).graph.IsTree := by
  have hdenotes := Denotes.substituted_imageTerm h.stores_term fun id _ other hother =>
    (each id other hother).stores_term
  refine isTree_of_denotes ?_ hdenotes
  obtain hsame | ⟨id, himage⟩ | ⟨_, -, hgraph⟩ := substituted_cases e image
  · rw [hsame]
    exact h.forest
  · exact (each id _ himage).forest
  · rw [hgraph]
    refine TermGraph.IsForest.fill (fun id other hother => ?_) (TermGraph.isForest_ofTerm e.term)
    obtain ⟨value, hvalue, rfl⟩ := Option.map_eq_some_iff.1 hother
    exact each id value hvalue

theorem isTree_of_replace_ok {new : Expression} (hnew : new.graph.IsTree) {p : Position}
    (hp : p ∈ e.positions) (ok : e.replace p.slot new = .ok e') : e'.graph.IsTree := by
  obtain rfl | ⟨index, i, g, hslot, hok, rfl⟩ := of_replace_ok ok
  · exact hnew
  · obtain ⟨o, stands, -⟩ := exists_marks h hp
    obtain ⟨g', hok', hstores⟩ :=
      h.forest.exists_replaceArg h.stores_term stands hslot hnew.stores_term
    obtain rfl := Except.ok.inj (hok.symm.trans hok')
    exact isTree_of_denotes (h.forest.replaceArg hnew (stands.lt_size hslot) hok) hstores

end

/-- **Every history gives a tree.** -/
theorem Assembled.isTree (made : e.Assembled) : e.graph.IsTree := by
  induction made with
  | free ctx id => exact isTree_of_denotes (TermGraph.isForest_of_isEmpty rfl) (.free id)
  | @constant ctx symbol e ok =>
    obtain ⟨-, rfl⟩ := of_constant_ok ok
    exact isTree_of_denotes (TermGraph.isForest_of_isEmpty rfl) (.const symbol)
  | func _ ok ih => exact isTree_of_func_ok ih ok
  | ofFormula ok =>
    obtain ⟨t, -, rfl⟩ := of_ofFormula_ok ok
    exact isTree_of_denotes (TermGraph.isForest_ofTerm t) (TermGraph.stores_ofTerm t)
  | viewAt _ ok ih => exact isTree_of_viewAt_ok ih ok
  | @freeToFree e e' id other _ ok ih =>
    obtain ⟨-, rfl⟩ := assignFree_eq_ok_iff.1 ok
    exact isTree_assigned ih id nofun (.free other)
  | @freeToConst e e' id symbol _ ok ih =>
    obtain ⟨-, -, rfl⟩ := of_freeToConst_ok ok
    exact isTree_assigned ih id nofun (.const symbol)
  | shift _ ok ih =>
    obtain ⟨-, rfl⟩ := shift_eq_ok_iff.1 ok
    exact isTree_shifted ih _
  | compact _ ok ih =>
    obtain ⟨-, rfl⟩ := compact_eq_ok_iff.1 ok
    exact isTree_compacted ih
  | mapFree _ _ ok ih each =>
    obtain ⟨-, rfl⟩ := mapFree_eq_ok_iff.1 ok
    exact isTree_substituted ih each
  | replace _ _ hp ok ih ihnew => exact isTree_of_replace_ok ih ihnew hp ok

/-! ### Positions of expressions -/

/-- The position stands for the occurrence. It is where the way to the occurrence ends, and seen
from there the expression is the subterm. Replacing what is there replaces the subterm, and leaves
alone what is neither above nor below. -/
structure Locates (e : Expression) (p : Position) (o : Occurrence) : Prop where
  stands : e.graph.StandsAt ⟨e.graph.root, none⟩ o.path p
  shows : ∃ part, e.viewAt p.node = .ok part ∧ part.ctx = e.ctx ∧ part.Denotes o.term
  replaces : ∀ new : Expression, new.Denotes new.term → ∃ e', e.replace p.slot new = .ok e' ∧
    e'.Denotes (e.term.replaceAt o.path new.term) ∧ e'.term.HasAt o.path new.term ∧
      ∀ path u, ¬o.path <+: path → ¬path <+: o.path → (e'.term.HasAt path u ↔ e.term.HasAt path u)

theorem exists_replace (h : e.graph.IsTree) {p : Position} {o : Occurrence}
    (marks : e.graph.Marks ⟨e.graph.root, none⟩ p o) {new : Expression}
    (denotes : new.Denotes new.term) :
    ∃ e', e.replace p.slot new = .ok e' ∧ e'.Denotes (e.term.replaceAt o.path new.term) := by
  cases hslot : p.slot with
  | none =>
    refine ⟨new, rfl, ?_⟩
    rw [marks.1.eq_nil hslot, Term.replaceAt]
    exact denotes
  | some place =>
    obtain ⟨index, i⟩ := place
    obtain ⟨g', hok, hstores⟩ := h.forest.exists_replaceArg h.stores_term marks.1 hslot denotes
    exact ⟨e.withGraph g', bind_eq_ok.2 ⟨g', hok, rfl⟩, hstores⟩

theorem locates_of_marks (h : e.graph.IsTree) {p : Position} {o : Occurrence}
    (marks : e.graph.Marks ⟨e.graph.root, none⟩ p o) : e.Locates p o := by
  refine ⟨marks.1, exists_viewAt marks.2, fun new denotes => ?_⟩
  obtain ⟨e', hok, hdenotes⟩ := exists_replace h marks denotes
  obtain ⟨u, hu, hat⟩ := h.stores_term.leads marks.1.leads
  refine ⟨e', hok, hdenotes, ?_, fun path v notBelow notAbove => ?_⟩
  · rw [hdenotes.term_eq]
    exact hat.replaceAt_self new.term
  · rw [hdenotes.term_eq]
    exact hat.hasAt_replaceAt_iff new.term notBelow notAbove

/-- **Replacing touches one occurrence.** Take an expression that is built by operations on
expressions: substituting, replacing, looking at parts, relabelling, laying out anew, in any order.
No record within reach of its root is in two slots. The positions are the occurrences of subterms,
each of them once and in the order of their paths; a position shows the subterm, and replacing what
is there gives the term with that one occurrence replaced. -/
theorem replacing_touches_one_occurrence (made : e.Assembled) :
    e.Denotes e.term ∧
      (∀ index i index' i' j, e.graph.InSlot index i j → e.graph.InSlot index' i' j →
        index = index' ∧ i = i') ∧
      List.Forall₂ e.Locates e.positions e.term.occurrences ∧
      (e.term.occurrences.map Occurrence.path).Pairwise (· < ·) ∧
      ∀ path t, ⟨path, t⟩ ∈ e.term.occurrences ↔ e.term.HasAt path t := by
  have h := made.isTree
  refine ⟨h.stores_term, ?_, ?_, e.term.pairwise_path_occurrences, ?_⟩
  · intro index i index' i' j first second
    exact h.forest.inSlot_unique first second
  · exact (forall₂_marks h).imp fun p o marks => locates_of_marks h marks
  · exact fun path t => Term.mem_occurrences

/-- A variable that occurs twice, replaced by an application. -/
def filledTwice : Expression :=
  (ofTerm .paired (.app 0 [.var 0, .var 0])).substituted
    (DenseMap.empty.bound 0 (.ofTerm .paired (.app 1 [.var 1]))).lookup

theorem assembled_filledTwice : filledTwice.Assembled := by
  have ok : (ofTerm .paired (.app 0 [.var 0, .var 0])).mapFree
      (DenseMap.empty.bound 0 (.ofTerm .paired (.app 1 [.var 1]))) = .ok filledTwice := rfl
  refine .mapFree (.ofFormula (f := .func 0 [.free 0, .free 0]) rfl) (fun id image himage => ?_) ok
  rw [lookup_single] at himage
  split at himage
  · obtain rfl := Option.some.inj himage
    exact .ofFormula (f := .func 1 [.free 1]) rfl
  · cases himage

theorem replacing_touches_one_occurrence_substituted :
    filledTwice.Assembled ∧
      ∃ p e', filledTwice.positions[2]? = some p ∧
        filledTwice.replace p.slot (.free .paired 5) = .ok e' ∧
          e'.Denotes (.app 0 [.app 1 [.var 5], .app 1 [.var 1]]) := by
  obtain ⟨-, -, hlocates, -⟩ := replacing_touches_one_occurrence assembled_filledTwice
  obtain ⟨hlength, hlocates⟩ := List.forall₂_iff_get.1 hlocates
  have hfirst : filledTwice.term.occurrences[2]? = some ⟨[0, 0], .var 1⟩ := by decide +kernel
  obtain ⟨hn, hfirst⟩ := List.getElem?_eq_some_iff.1 hfirst
  obtain ⟨-, -, hreplaces⟩ := hlocates 2 (hlength ▸ hn) hn
  rw [show filledTwice.term.occurrences.get ⟨2, hn⟩ = _ from hfirst] at hreplaces
  obtain ⟨e', hok, hdenotes, -⟩ := hreplaces (.free .paired 5) (.free 5)
  have hterm : filledTwice.term.replaceAt [0, 0] (free .paired 5).term =
      .app 0 [.app 1 [.var 5], .app 1 [.var 1]] := by decide +kernel
  rw [hterm] at hdenotes
  exact ⟨assembled_filledTwice, _, e', List.getElem?_eq_getElem _, hok, hdenotes⟩

end Expression

end Equational
