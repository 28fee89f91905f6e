import Equational.Proofs.Collecting
import Equational.Proofs.Handlers

/-!
# Edits, and when they succeed

An expression is edited after its variables were found, and before variables are replaced it is laid
out anew. Each edit has a total form here, which is what the edit gives if it succeeds, and a lemma
that says when it does: the arguments can be followed from the root to an end, the variables fit
into one row, and for some edits the applications have arguments or the variables stay within a
word.
-/

namespace Equational

namespace DenseSet

variable {s : DenseSet} {ids : List Nat}

theorem isSome_lookup_of_ofIds (ok : ofIds ids = .ok s) (id : Nat) :
    (s.lookup id).isSome = true ↔ id ∈ ids := by
  rw [isSome_lookup_of_addAll ok id]
  simp [DenseMap.lookup, DenseMap.empty]

theorem mem_keys_of_ofIds (ok : ofIds ids = .ok s) (id : Nat) : id ∈ s.keys ↔ id ∈ ids := by
  rw [DenseMap.mem_keys, isSome_lookup_of_ofIds ok]

theorem isEmpty_of_ofIds (ok : ofIds ids = .ok s) : s.isEmpty = true ↔ ids = [] := by
  rw [(shows_of_holds (holds_of_ofIds ok)).isEmpty, List.toFinset_eq_empty_iff]

end DenseSet

namespace Expression

variable {e e' : Expression} {t : Term}

theorem Denotes.denotes_term (h : e.Denotes t) : e.Denotes e.term := by
  rw [h.term_eq]
  exact h

/-- Following the arguments from the root ends, and the variables that are met fit into one row. -/
structure Fits (e : Expression) : Prop where
  denotes : e.Denotes e.term
  fit : DenseSet.FitRow e.term.vars

theorem freeIds_eq_ok_iff {ids : DenseSet} :
    e.freeIds = .ok ids ↔ e.Fits ∧ DenseSet.ofIds e.term.vars = .ok ids := by
  constructor
  · intro ok
    have denotes := denotes_of_freeIds ok
    have found : DenseSet.ofIds e.term.vars = .ok ids := denotes.freeIds_eq.symm.trans ok
    exact ⟨⟨denotes, ids, found⟩, found⟩
  · rintro ⟨fits, found⟩
    exact fits.denotes.freeIds_eq.trans found

/-! ### Relabelling -/

/-- The expression with one variable relabelled, if it occurs. -/
def assigned (e : Expression) (id : Nat) (leaf : Node) : Expression :=
  if id ∈ e.term.vars then
    e.withGraph (e.graph.relabel fun i => if i = id then some leaf else none)
  else e

theorem assignFree_eq_ok_iff {id : Nat} {leaf : Node} :
    e.assignFree id leaf = .ok e' ↔ e.Fits ∧ e' = e.assigned id leaf := by
  have chosen : ∀ ids, DenseSet.ofIds e.term.vars = .ok ids →
      (if (ids.lookup id).isSome then
        pure (e.withGraph (e.graph.relabel fun i => if i = id then some leaf else none))
      else pure e : Checked Expression) = .ok (e.assigned id leaf) := by
    intro ids found
    rw [assigned]
    by_cases hid : id ∈ e.term.vars
    · rw [if_pos hid, if_pos ((DenseSet.isSome_lookup_of_ofIds found id).2 hid)]
      rfl
    · rw [if_neg hid, if_neg fun h => hid ((DenseSet.isSome_lookup_of_ofIds found id).1 h)]
      rfl
  constructor
  · intro ok
    obtain ⟨ids, hids, ok⟩ := bind_eq_ok.1 ok
    obtain ⟨fits, found⟩ := freeIds_eq_ok_iff.1 hids
    exact ⟨fits, Except.ok.inj (ok.symm.trans (chosen ids found))⟩
  · rintro ⟨fits, rfl⟩
    obtain ⟨ids, found⟩ := fits.fit
    exact bind_eq_ok.2 ⟨ids, freeIds_eq_ok_iff.2 ⟨fits, found⟩, chosen ids found⟩

/-- The expression with all variables moved up, if there are any. -/
def shifted (e : Expression) (n : Nat) : Expression :=
  if n = 0 ∨ e.term.vars = [] then e
  else e.withGraph (e.graph.relabel fun id => some (.free (id + n)))

/-- Every variable of the table stays within a word when it is moved up. -/
def StaysInWords (e : Expression) (n : Nat) : Prop := ∀ id ∈ e.graph.labels, id + n < UInt64.size

theorem shift_eq_ok_iff {n : Nat} :
    e.shift n = .ok e' ↔
      (n = 0 ∨ e.Fits ∧ (e.term.vars = [] ∨ e.StaysInWords n)) ∧ e' = e.shifted n := by
  rw [shift, shifted]
  by_cases hn : n = 0
  · rw [if_pos hn, if_pos (.inl hn)]
    exact ⟨fun ok => ⟨.inl hn, (Except.ok.inj ok).symm⟩, fun h => congrArg Except.ok h.2.symm⟩
  rw [if_neg hn]
  constructor
  · intro ok
    obtain ⟨ids, hids, ok⟩ := bind_eq_ok.1 ok
    obtain ⟨fits, found⟩ := freeIds_eq_ok_iff.1 hids
    by_cases hempty : e.term.vars = []
    · rw [if_pos ((DenseSet.isEmpty_of_ofIds found).2 hempty)] at ok
      refine ⟨.inr ⟨fits, .inl hempty⟩, ?_⟩
      rw [if_pos (.inr hempty)]
      exact (Except.ok.inj ok).symm
    · rw [if_neg fun h => hempty ((DenseSet.isEmpty_of_ofIds found).1 h)] at ok
      obtain ⟨_, hwords, ok⟩ := bind_eq_ok.1 ok
      have words : e.StaysInWords n := by simpa [StaysInWords] using require_eq_ok.1 hwords
      refine ⟨.inr ⟨fits, .inr words⟩, ?_⟩
      rw [if_neg (not_or.2 ⟨hn, hempty⟩)]
      exact (Except.ok.inj ok).symm
  · rintro ⟨hcan, rfl⟩
    obtain ⟨fits, hwords⟩ := hcan.resolve_left hn
    obtain ⟨ids, found⟩ := fits.fit
    refine bind_eq_ok.2 ⟨ids, freeIds_eq_ok_iff.2 ⟨fits, found⟩, ?_⟩
    by_cases hempty : e.term.vars = []
    · rw [if_pos ((DenseSet.isEmpty_of_ofIds found).2 hempty), if_pos (.inr hempty)]
      rfl
    · rw [if_neg fun h => hempty ((DenseSet.isEmpty_of_ofIds found).1 h),
        if_neg (not_or.2 ⟨hn, hempty⟩)]
      have words : e.graph.labels.all (fun id => id + n < UInt64.size) = true := by
        simpa [StaysInWords] using hwords.resolve_left hempty
      exact bind_eq_ok.2 ⟨(), require_eq_ok.2 words, rfl⟩

/-! ### Laying out anew -/

/-- The expression laid out anew, unless it is a leaf. -/
def compacted (e : Expression) : Expression :=
  match e.graph.root with
  | .func _ => e.withGraph (.ofTerm e.term)
  | _ => e

theorem graph_compacted (e : Expression) : e.compacted.graph = e.graph.compacted := by
  unfold compacted TermGraph.compacted
  cases e.graph.root with
  | free id => rfl
  | const symbol => rfl
  | func index => rfl

theorem ctx_compacted (e : Expression) : e.compacted.ctx = e.ctx := by
  rw [compacted]
  split
  · rfl
  · rfl

/-- The condition on an application: its term can be laid out anew. -/
structure IsPlain (e : Expression) : Prop extends e.Fits where
  covered : Vocabulary.plain.Covers e.term

theorem graph_compact_eq_ok_iff {index : Nat} (root : e.graph.root = .func index) {g : TermGraph} :
    e.graph.compact = .ok g ↔ e.IsPlain ∧ g = .ofTerm e.term := by
  have hcompacted : e.graph.compacted = .ofTerm e.term := by
    rw [TermGraph.compacted, root]
    rfl
  constructor
  · intro ok
    have hstores : e.Denotes e.term := by
      rw [TermGraph.compact, root] at ok
      obtain ⟨x, hwalk, -⟩ := bind_eq_ok.1 ok
      obtain ⟨t, ht⟩ := TermGraph.exists_stores_of_foldFrom hwalk
      exact Denotes.denotes_term ht
    obtain ⟨hcan, rfl⟩ := (TermGraph.compact_eq_ok_iff hstores).1 ok
    obtain ⟨fit, covered⟩ := hcan (by rw [root]; rfl)
    exact ⟨⟨⟨hstores, fit⟩, covered⟩, hcompacted⟩
  · rintro ⟨plain, rfl⟩
    exact (TermGraph.compact_eq_ok_iff plain.denotes).2
      ⟨fun _ => ⟨plain.fit, plain.covered⟩, hcompacted.symm⟩

theorem compact_eq_ok_iff :
    e.compact = .ok e' ↔ (e.graph.root.kind = .func → e.IsPlain) ∧ e' = e.compacted := by
  cases hroot : e.graph.root with
  | free id => simp [compact, compacted, hroot, Node.kind, eq_comm, pure, Except.pure]
  | const symbol => simp [compact, compacted, hroot, Node.kind, eq_comm, pure, Except.pure]
  | func index =>
    rw [compact, compacted, hroot]
    constructor
    · intro ok
      obtain ⟨g, hg, ok⟩ := bind_eq_ok.1 ok
      obtain ⟨plain, rfl⟩ := (graph_compact_eq_ok_iff hroot).1 hg
      exact ⟨fun _ => plain, (Except.ok.inj ok).symm⟩
    · rintro ⟨hcan, rfl⟩
      exact bind_eq_ok.2 ⟨_, (graph_compact_eq_ok_iff hroot).2 ⟨hcan rfl, rfl⟩, rfl⟩

/-! ### Replacing variables -/

/-- The expression with a copy of its image for each occurrence of a variable that has one. -/
def substituted (e : Expression) (image : Nat → Option Expression) : Expression :=
  match e.graph.root with
  | .free id => (image id).getD e
  | .const _ => e
  | .func _ =>
    if e.term.vars.any fun id => (image id).isSome then
      e.withGraph ((TermGraph.ofTerm e.term).fill fun id => (image id).map graph)
    else e

/-- What replacing asks of an application: its variables fit into one row, and if some of them are
to be replaced then it can be laid out anew. -/
structure CanFill (e : Expression) (image : Nat → Option Expression) : Prop extends e.Fits where
  covered : ∀ id ∈ e.term.vars, (image id).isSome → Vocabulary.plain.Covers e.term

theorem mapFree_eq_ok_iff {images : DenseMap Expression} :
    e.mapFree images = .ok e' ↔ (e.graph.root.kind = .func → e.CanFill images.lookup) ∧
      e' = e.substituted images.lookup := by
  cases hroot : e.graph.root with
  | free id => simp [mapFree, substituted, hroot, Node.kind, eq_comm, pure, Except.pure]
  | const symbol => simp [mapFree, substituted, hroot, Node.kind, eq_comm, pure, Except.pure]
  | func index =>
    have same : ∀ ids, DenseSet.ofIds e.term.vars = .ok ids →
        ids.keys.any (fun id => (images.lookup id).isSome) =
          e.term.vars.any fun id => (images.lookup id).isSome := by
      intro ids found
      rw [Bool.eq_iff_iff, List.any_eq_true, List.any_eq_true]
      simp only [DenseSet.mem_keys_of_ofIds found]
    rw [mapFree, substituted, hroot]
    dsimp only
    constructor
    · intro ok
      obtain ⟨ids, hids, ok⟩ := bind_eq_ok.1 ok
      obtain ⟨fits, found⟩ := freeIds_eq_ok_iff.1 hids
      rw [same ids found] at ok
      split at ok
      next hany =>
        obtain ⟨g, hg, ok⟩ := bind_eq_ok.1 ok
        obtain ⟨plain, rfl⟩ := (graph_compact_eq_ok_iff hroot).1 hg
        refine ⟨fun _ => ⟨fits, fun _ _ _ => plain.covered⟩, ?_⟩
        rw [if_pos hany]
        exact (Except.ok.inj ok).symm
      next hnone =>
        refine ⟨fun _ => ⟨fits, fun id hid hsome => ?_⟩, ?_⟩
        · exact absurd (List.any_eq_true.2 ⟨id, hid, hsome⟩) hnone
        · rw [if_neg hnone]
          exact (Except.ok.inj ok).symm
    · rintro ⟨hcan, rfl⟩
      have can := hcan rfl
      obtain ⟨ids, found⟩ := can.fit
      refine bind_eq_ok.2 ⟨ids, freeIds_eq_ok_iff.2 ⟨can.toFits, found⟩, ?_⟩
      rw [same ids found]
      split
      next hany =>
        obtain ⟨id, hid, hsome⟩ := List.any_eq_true.1 hany
        exact bind_eq_ok.2 ⟨_, (graph_compact_eq_ok_iff hroot).2
          ⟨⟨can.toFits, can.covered id hid hsome⟩, rfl⟩, rfl⟩
      next => rfl

end Expression

end Equational
