import Equational.Proofs.Layout
import Equational.Proofs.StoredRewriting
import Equational.Proofs.Successor

/-!
# Successors of stored statements

The successors of a state are found by rewriting its equation, and what is stored for them follows
from where their leaves come from. Here the same successors are found by editing what is stored: the
statement is moved above the rules, an expression is put at one of its positions, the variables that
are left open are relabelled, and the result is laid out anew. If there is room for the rewrites
then each of these edits succeeds, and the statements that come out stand for the listed expansions,
one by one and in the same order (`Kernel.exists_storedSuccessors`).
-/

namespace Equational

open DenseMap (IsNarrow)

/-! ### The search in terms of edits -/

namespace Statement

def moveAbove (bound : Nat) (s : Statement) : Checked Statement := do
  let ids ← s.freeIds
  match ids.least? with
  | some least => if least < bound then s.shift (bound - least) else pure s
  | none => pure s

def candidates (s : Statement) : Checked (List Candidate) := do
  let ids ← s.freeIds
  pure (ids.keys.map .free ++ s.ctx.signature.constants.map .const)

/-- Assigns a candidate to each of the variables, and lays out what comes of each choice. -/
def assignments (candidates : List Candidate) : List Nat → Statement → Checked (List Statement)
  | [], s => do pure [← s.compact]
  | id :: ids, s => candidates.flatMapM fun c => do assignments candidates ids (← c.assign s id)

end Statement

/-- The statements one rewrite away from a statement. -/
def Kernel.storedSuccessors (k : Kernel) (s : Statement) : Checked (List Statement) := do
  let working ← s.moveAbove k.bound
  let candidates ← working.candidates
  working.positions.flatMapM fun entry => do
    let part ← (working.side entry.1).viewAt entry.2.node
    k.rules.flatMapM fun rule => do
      let ways ← rule.statement.rewrites part
      ways.flatMapM fun way => do
        let next ← working.replace entry.1 entry.2.slot way.replacement
        next.assignments candidates way.unbound

/-! ### Moving up -/

namespace TermGraph

variable {g : TermGraph} {t : Term} {id : Nat}

theorem exists_record_of_mem_labels (root : g.root.kind = .func) (hid : id ∈ g.labels) :
    ∃ (index : Nat) (r : Record), g.records[index]? = some r ∧ .free id ∈ r.args := by
  rw [labels] at hid
  split at hid
  next hroot =>
    rw [hroot] at root
    cases root
  next =>
    obtain ⟨r, hr, hid⟩ := List.mem_flatMap.1 hid
    obtain ⟨node, hnode, heq⟩ := List.mem_filterMap.1 hid
    obtain ⟨index, found⟩ := List.mem_iff_getElem?.1 hr
    refine ⟨index, r, by rwa [Array.getElem?_toList] at found, ?_⟩
    cases node with
    | free i =>
      obtain rfl := Option.some.inj heq
      exact hnode
    | const symbol => cases heq
    | func i => cases heq

/-- Each record of a layout stands for a part of the term, so its labels are variables of the term.
-/
theorem mem_vars_of_mem_labels_ofTerm (root : (ofTerm t).root.kind = .func)
    (hid : id ∈ (ofTerm t).labels) : id ∈ t.vars := by
  have laid := laysOut_ofTerm t
  obtain ⟨index, r, found, harg⟩ := exists_record_of_mem_labels root hid
  obtain ⟨o, ho⟩ : ∃ o, t.applications[index]? = some o := by
    have hlt : index < (ofTerm t).size := (Array.getElem?_eq_some_iff.1 found).1
    rw [laid.size] at hlt
    exact ⟨_, List.getElem?_eq_getElem hlt⟩
  have hat := (Term.mem_applications.1 (List.mem_of_getElem? ho)).1
  refine hat.vars_subset ?_
  have stored := (laid.places index o ho).2
  generalize o.term = u at stored
  cases stored with
  | @func _ r' term found' args =>
    obtain rfl := Option.some.inj (found.symm.trans found')
    have hvar := args _ harg
    refine Term.mem_vars_app.2 ⟨_, List.mem_map_of_mem harg, ?_⟩
    generalize term (.free id) = u at hvar
    cases hvar with
    | free => exact Term.mem_vars_var.2 rfl

theorem hasOwnSlots_of_leaf (leaf : g.root.kind ≠ .func) : g.HasOwnSlots := by
  rintro index i index' i' j ⟨path, r, way, -⟩
  cases hroot : g.root with
  | free id =>
    rw [hroot] at way
    cases way
  | const symbol =>
    rw [hroot] at way
    cases way
  | func index => exact absurd (by rw [hroot]; rfl) leaf

end TermGraph

namespace Expression

variable {ctx : Context} {e : Expression} {t : Term}

/-- Laying the expression out anew leaves its records as they are. -/
def IsLaidOut (e : Expression) : Prop := e.graph.compacted = e.graph

theorem IsLaidOut.graph_eq {symbol : Nat} {args : List Term} (laidOut : e.IsLaidOut)
    (h : e.Denotes (.app symbol args)) : e.graph = .ofTerm (.app symbol args) := by
  obtain ⟨index, hroot⟩ := h.root_eq_func
  have hgraph : e.graph.compacted = .ofTerm e.term := by
    rw [TermGraph.compacted, hroot]
    rfl
  rw [← laidOut, hgraph, h.term_eq]

/-- Whatever it is moved up by, what is laid out has each record in a slot of its own. -/
theorem IsLaidOut.hasOwnSlots_shifted (laidOut : e.IsLaidOut) (h : e.Denotes t) (n : Nat) :
    (e.shifted n).graph.HasOwnSlots := by
  cases t with
  | var id =>
    refine TermGraph.hasOwnSlots_of_leaf ?_
    rw [(h.shifted n).root_eq_free]
    exact (by decide : NodeKind.free ≠ .func)
  | const symbol =>
    refine TermGraph.hasOwnSlots_of_leaf ?_
    rw [(h.shifted n).root_eq_const]
    exact (by decide : NodeKind.const ≠ .func)
  | app symbol args =>
    have forest : e.graph.IsForest :=
      laidOut.graph_eq h ▸ TermGraph.isForest_ofTerm (.app symbol args)
    have tree := isTree_shifted (isTree_of_denotes forest h) n
    exact fun _ _ _ _ _ => tree.forest.inSlot_unique

theorem Keeps.shift_eq (keeps : e.Keeps ctx t) (laidOut : e.IsLaidOut)
    (narrow : IsNarrow t.vars) {n : Nat} (words : ∀ id ∈ t.vars, id + n < UInt64.size) :
    e.shift n = .ok (e.shifted n) := by
  refine shift_eq_ok_iff.2 ⟨.inr ⟨keeps.fits narrow, ?_⟩, rfl⟩
  rw [keeps.denotes.term_eq]
  cases t with
  | var id =>
    refine .inr fun i hi => words i ?_
    rw [TermGraph.labels, keeps.denotes.root_eq_free] at hi
    exact Term.mem_vars_var.2 (List.mem_singleton.1 hi)
  | const symbol => exact .inl rfl
  | app symbol args =>
    refine .inr fun id hid => words id ?_
    rw [laidOut.graph_eq keeps.denotes] at hid
    exact TermGraph.mem_vars_of_mem_labels_ofTerm rfl hid

theorem Keeps.shifted (keeps : e.Keeps ctx t) (n : Nat) : (e.shifted n).Keeps ctx (t.shift n) where
  ctx_eq := by
    rw [Expression.shifted]
    split
    next => exact keeps.ctx_eq
    next => exact keeps.ctx_eq
  denotes := keeps.denotes.shifted n
  covered := keeps.covered.bind fun id _ => .var (id + n)

/-! ### Relabelling and laying out -/

theorem Keeps.assigned (keeps : e.Keeps ctx t) (id : Nat) {leaf : Node} {u : Term}
    (isLeaf : leaf.kind ≠ .func) (hleaf : TermGraph.Stores { root := leaf } leaf u)
    (covered : Vocabulary.plain.Covers u) : (e.assigned id leaf).Keeps ctx (t.assign id u) where
  ctx_eq := by
    rw [Expression.assigned]
    split
    next => exact keeps.ctx_eq
    next => exact keeps.ctx_eq
  denotes := keeps.denotes.assigned id isLeaf hleaf
  covered := by
    refine keeps.covered.bind fun i _ => ?_
    split
    next => exact covered
    next => exact .var i

theorem Keeps.exists_freeToFree (keeps : e.Keeps ctx t) (narrow : IsNarrow t.vars)
    (id other : Nat) :
    ∃ e', e.freeToFree id other = .ok e' ∧ e'.Keeps ctx (t.assign id (.var other)) :=
  ⟨_, assignFree_eq_ok_iff.2 ⟨keeps.fits narrow, rfl⟩,
    keeps.assigned id (by simp [Node.kind]) (.free other) (.var other)⟩

theorem Keeps.exists_freeToConst (keeps : e.Keeps ctx t) (narrow : IsNarrow t.vars) (id : Nat)
    {symbol : Nat} (declared : ctx.signature.declares symbol 0 = true) :
    ∃ e', e.freeToConst id symbol = .ok e' ∧ e'.Keeps ctx (t.assign id (.const symbol)) :=
  ⟨_, freeToConst_eq_ok_iff.2 ⟨keeps.ctx_eq ▸ declared, keeps.fits narrow, rfl⟩,
    keeps.assigned id (by simp [Node.kind]) (.const symbol) (.const trivial)⟩

theorem Keeps.exists_compact (keeps : e.Keeps ctx t) (narrow : IsNarrow t.vars) :
    ∃ e', e.compact = .ok e' ∧ e'.Keeps ctx t ∧ e'.IsLaidOut := by
  have ok : e.compact = .ok e.compacted :=
    compact_eq_ok_iff.2 ⟨fun _ => keeps.isPlain narrow, rfl⟩
  refine ⟨_, ok, ⟨e.ctx_compacted.trans keeps.ctx_eq, keeps.denotes.compacted, keeps.covered⟩, ?_⟩
  have hself := (compact_eq_ok_iff.1 (compact_compact ok)).2
  rw [IsLaidOut, ← graph_compacted, ← hself]

end Expression

namespace Statement

variable {ctx : Context} {s : Statement} {e w : Equation}

theorem exists_onSides {f : Expression → Checked Expression} {l r : Expression}
    (hl : f s.lhs = .ok l) (hr : f s.rhs = .ok r) (same : r.ctx = l.ctx) :
    ∃ s', s.onSides f = .ok s' ∧ s'.lhs = l ∧ s'.rhs = r := by
  obtain ⟨ctx, left⟩ := l
  obtain ⟨_, right⟩ := r
  obtain rfl := same
  refine ⟨⟨_, left, right⟩, bind_eq_ok.2 ⟨_, hl, bind_eq_ok.2 ⟨_, hr, ?_⟩⟩, rfl, rfl⟩
  exact bind_eq_ok.2 ⟨(), require_eq_ok.2 (Kernel.same_self _), rfl⟩

/-- An edit of both sides that stays within the context. -/
theorem Keeps.exists_onSides {e' : Equation} {f : Expression → Checked Expression}
    (hl : ∃ l, f s.lhs = .ok l ∧ l.Keeps ctx e'.lhs)
    (hr : ∃ r, f s.rhs = .ok r ∧ r.Keeps ctx e'.rhs) :
    ∃ s', s.onSides f = .ok s' ∧ s'.Keeps ctx e' := by
  obtain ⟨l, hl, keeps⟩ := hl
  obtain ⟨r, hr, keeps'⟩ := hr
  obtain ⟨s', ok, rfl, rfl⟩ :=
    Statement.exists_onSides hl hr (keeps'.ctx_eq.trans keeps.ctx_eq.symm)
  exact ⟨s', ok, keeps, keeps'⟩

/-- The statement is of the context, stands for the equation and is laid out. -/
structure Settles (ctx : Context) (e : Equation) (s : Statement) : Prop extends s.Keeps ctx e where
  laidOutLeft : s.lhs.IsLaidOut
  laidOutRight : s.rhs.IsLaidOut

theorem Keeps.exists_compact (keeps : s.Keeps ctx e) (narrow : IsNarrow e.vars) :
    ∃ s', s.compact = .ok s' ∧ s'.Settles ctx e := by
  obtain ⟨l, hl, keepsLeft, left⟩ := keeps.lhs.exists_compact
    (narrow.mono fun id hid => Equation.mem_vars.2 (.inl hid))
  obtain ⟨r, hr, keepsRight, right⟩ := keeps.rhs.exists_compact
    (narrow.mono fun id hid => Equation.mem_vars.2 (.inr hid))
  obtain ⟨s', ok, rfl, rfl⟩ :=
    Statement.exists_onSides hl hr (keepsRight.ctx_eq.trans keepsLeft.ctx_eq.symm)
  exact ⟨s', ok, ⟨keepsLeft, keepsRight⟩, left, right⟩

theorem Settles.exists_shift (settles : s.Settles ctx e) (narrow : IsNarrow e.vars) {n : Nat}
    (words : ∀ id ∈ e.vars, id + n < UInt64.size) :
    ∃ w, s.shift n = .ok w ∧ w.Keeps ctx (e.shift n) ∧ ∀ side, (w.side side).graph.HasOwnSlots := by
  have hl : s.lhs.shift n = .ok _ := settles.lhs.shift_eq settles.laidOutLeft
    (narrow.mono fun id hid => Equation.mem_vars.2 (.inl hid))
    fun id hid => words id (Equation.mem_vars.2 (.inl hid))
  have hr : s.rhs.shift n = .ok _ := settles.rhs.shift_eq settles.laidOutRight
    (narrow.mono fun id hid => Equation.mem_vars.2 (.inr hid))
    fun id hid => words id (Equation.mem_vars.2 (.inr hid))
  have left := settles.lhs.shifted n
  have right := settles.rhs.shifted n
  obtain ⟨w, ok, hleft, hright⟩ := Statement.exists_onSides (f := fun e => e.shift n) hl hr
    (right.ctx_eq.trans left.ctx_eq.symm)
  refine ⟨w, ok, ⟨hleft ▸ left, hright ▸ right⟩, ?_⟩
  rintro (_ | _)
  · show w.lhs.graph.HasOwnSlots
    rw [hleft]
    exact settles.laidOutLeft.hasOwnSlots_shifted settles.lhs.denotes n
  · show w.rhs.graph.HasOwnSlots
    rw [hright]
    exact settles.laidOutRight.hasOwnSlots_shifted settles.rhs.denotes n

theorem Settles.exists_moveAbove (settles : s.Settles ctx e) (narrow : IsNarrow e.vars)
    {bound : Nat}
    (words : ∀ id ∈ (e.above bound).vars, id < UInt64.size) :
    ∃ w, s.moveAbove bound = .ok w ∧ w.Keeps ctx (e.above bound) ∧
      ∀ side, (w.side side).graph.HasOwnSlots := by
  obtain ⟨ids, hids⟩ := Equation.exists_collect narrow
  rw [moveAbove, settles.denotes.freeIds_eq, hids, ok_bind, Equation.least?_of_collect hids]
  have hself : ∀ side, (s.side side).graph.HasOwnSlots := by
    rintro (_ | _)
    · exact settles.laidOutLeft.hasOwnSlots_shifted settles.lhs.denotes 0
    · exact settles.laidOutRight.hasOwnSlots_shifted settles.rhs.denotes 0
  unfold Equation.above at words ⊢
  cases hleast : e.freeIds.least? with
  | none => exact ⟨s, rfl, settles.toKeeps, hself⟩
  | some least =>
    rw [hleast] at words
    dsimp only at words ⊢
    split
    next hlt =>
      rw [if_pos hlt] at words
      refine settles.exists_shift narrow fun id hid => words _ ?_
      exact Equation.mem_vars_shift.2 ⟨id, hid, rfl⟩
    next => exact ⟨s, rfl, settles.toKeeps, hself⟩

theorem Keeps.candidates_eq (keeps : s.Keeps ctx e) (narrow : IsNarrow e.vars) :
    s.candidates = .ok (Candidate.listed e ctx.signature.constants) := by
  obtain ⟨ids, hids⟩ := Equation.exists_collect narrow
  refine bind_eq_ok.2 ⟨ids, keeps.denotes.freeIds_eq.trans hids, congrArg Except.ok ?_⟩
  rw [Candidate.listed, Equation.keys_of_collect hids, keeps.ctx_eq]

/-- A constant that is assigned is declared. -/
theorem Keeps.exists_assign (keeps : s.Keeps ctx e) (narrow : IsNarrow e.vars) {c : Candidate}
    (hc : c ∈ Candidate.listed w ctx.signature.constants) (id : Nat) :
    ∃ s', c.assign s id = .ok s' ∧ s'.Keeps ctx (e.assign id c.term) := by
  have narrow' : ∀ side, IsNarrow (e.side side).vars := by
    rintro (_ | _)
    · exact narrow.mono fun id hid => Equation.mem_vars.2 (.inl hid)
    · exact narrow.mono fun id hid => Equation.mem_vars.2 (.inr hid)
  cases c with
  | free other =>
    exact Keeps.exists_onSides (f := fun side => side.freeToFree id other)
      (keeps.lhs.exists_freeToFree (narrow' .lhs) id other)
      (keeps.rhs.exists_freeToFree (narrow' .rhs) id other)
  | const symbol =>
    have declared : ctx.signature.declares symbol 0 = true := by
      rcases Candidate.mem_listed.1 hc with ⟨_, _, heq⟩ | ⟨_, hsymbol, heq⟩
      · cases heq
      · cases heq
        exact Signature.mem_constants.1 hsymbol
    exact Keeps.exists_onSides (f := fun side => side.freeToConst id symbol)
      (keeps.lhs.exists_freeToConst (narrow' .lhs) id declared)
      (keeps.rhs.exists_freeToConst (narrow' .rhs) id declared)

/-! ### Ranges -/

/-- The run succeeds, and what comes out is stored for the equations, one by one. -/
def Lists (ctx : Context) (run : Checked (List Statement)) (equations : List Equation) : Prop :=
  ∃ nexts, run = .ok nexts ∧ List.Forall₂ (fun next e => next.Settles ctx e) nexts equations

theorem Lists.flatMapM {α β : Type} {P : α → β → Prop} {xs : List α} {ys : List β}
    {f : α → Checked (List Statement)} {g : β → List Equation} (items : List.Forall₂ P xs ys)
    (each : ∀ x y, P x y → y ∈ ys → Lists ctx (f x) (g y)) :
    Lists ctx (xs.flatMapM f) (ys.flatMap g) := by
  induction items with
  | nil => exact ⟨[], rfl, .nil⟩
  | @cons x y xs ys first _ ih =>
    obtain ⟨nexts, ok, settles⟩ := each x y first List.mem_cons_self
    obtain ⟨nexts', ok', settles'⟩ := ih fun x' y' h hy' =>
      each x' y' h (List.mem_cons_of_mem y hy')
    refine ⟨nexts ++ nexts', ?_, List.rel_append settles settles'⟩
    rw [List.flatMapM_cons, ok, ok_bind, ok', ok_bind]
    rfl

/-- The variables of the candidates and of the equation are within the span. -/
theorem lists_assignments {span : List Nat} (narrow : IsNarrow span)
    (hcands : ∀ id ∈ w.vars, id ∈ span) (ids : List Nat) (keeps : s.Keeps ctx e)
    (within : ∀ id ∈ e.vars, id ∈ span) :
    Lists ctx (assignments (Candidate.listed w ctx.signature.constants) ids s)
      ((Candidate.choices (Candidate.listed w ctx.signature.constants) ids).map fun choice =>
        choice.foldl (fun e entry => e.assign entry.1 entry.2.term) e) := by
  induction ids generalizing s e with
  | nil =>
    obtain ⟨s', ok, settles⟩ := keeps.exists_compact (narrow.mono within)
    exact ⟨[s'], bind_eq_ok.2 ⟨s', ok, rfl⟩, .cons settles .nil⟩
  | cons id ids ih =>
    rw [assignments, Candidate.choices, List.map_flatMap]
    refine Lists.flatMapM (P := Eq) (List.forall₂_refl _) ?_
    rintro c _ rfl hc
    obtain ⟨s', ok, keeps'⟩ := keeps.exists_assign (narrow.mono within) hc id
    rw [ok, ok_bind, List.map_map]
    refine ih keeps' fun i hi => ?_
    rcases Equation.mem_vars_assign hi with hi | hi
    · exact within i hi
    · exact hcands i (Candidate.mem_vars_term hc hi)

/-! ### Positions -/

/-- The position shows the subterm at the site, and whatever is put there takes its place. -/
structure Opens (ctx : Context) (e : Equation) (s : Statement) (entry : Side × Position)
    (site : Site) : Prop where
  shows : ∃ part, (s.side entry.1).viewAt entry.2.node = .ok part ∧
    part.Keeps ctx site.occurrence.term
  replaces : ∀ (new : Expression) (u : Term), new.Keeps ctx u →
    ∃ next, s.replace entry.1 entry.2.slot new = .ok next ∧ next.Keeps ctx (e.replaceAt site u)

theorem Keeps.opens (keeps : s.Keeps ctx e) (own : ∀ side, (s.side side).graph.HasOwnSlots) :
    List.Forall₂ (s.Opens ctx e) s.positions e.sites := by
  have hsides : ∀ side, (s.side side).Denotes (s.side side).term := by
    rintro (_ | _)
    · exact keeps.lhs.denotes.denotes_term
    · exact keeps.rhs.denotes.denotes_term
  obtain rfl := keeps.denotes.equation_eq
  refine (forall₂_sites_iff hsides).2 fun side p o entry => ?_
  have shares := (forall₂_sites_iff hsides).1 (forall₂_shares hsides) side p o entry
  have hpaths : (s.side side).pathsIn p.slot = [o.path] :=
    Expression.pathsIn_eq_singleton (hsides side) (own side) entry
  have hat : (s.side side).term.HasAt o.path o.term := by
    rw [← Term.mem_occurrences, ← Expression.map_snd_entries (hsides side)]
    exact List.mem_map.2 ⟨_, entry, rfl⟩
  refine ⟨?_, fun new u hnew => ?_⟩
  · obtain ⟨part, hview, hctx, hpart⟩ := shares.shows
    refine ⟨part, hview, hctx.trans keeps.ctx_eq, hpart, ?_⟩
    cases side with
    | lhs => exact keeps.lhs.covered.of_hasAt hat
    | rhs => exact keeps.rhs.covered.of_hasAt hat
  · obtain ⟨next, hreplace, hdenotes, hothers⟩ :=
      shares.replaces new (hnew.ctx_eq.trans keeps.ctx_eq.symm) hnew.denotes.denotes_term
    rw [hpaths, hnew.denotes.term_eq] at hdenotes
    refine ⟨next, hreplace, ?_⟩
    -- the other side tells the context
    cases side with
    | lhs =>
      have hrhs : next.rhs = s.rhs :=
        hothers .rhs (show Side.rhs ≠ Side.lhs by decide)
      have hctx : next.ctx = ctx := (congrArg Expression.ctx hrhs).trans keeps.ctx_eq
      exact ⟨⟨hctx, hdenotes, keeps.lhs.covered.replaceAt hnew.covered o.path⟩, hrhs ▸ keeps.rhs⟩
    | rhs =>
      have hlhs : next.lhs = s.lhs :=
        hothers .lhs (show Side.lhs ≠ Side.rhs by decide)
      have hctx : next.ctx = ctx := (congrArg Expression.ctx hlhs).trans keeps.ctx_eq
      exact ⟨hlhs ▸ keeps.lhs, ⟨hctx, hdenotes, keeps.rhs.covered.replaceAt hnew.covered o.path⟩⟩

end Statement

theorem Backing.isLaidOut_stored (b : Backing) (t : Term) (ctx : Context) :
    Expression.IsLaidOut ⟨ctx, b.stored t⟩ := by
  cases t with
  | var id => rfl
  | const symbol => rfl
  | app symbol args => exact congrArg TermGraph.ofTerm (TermGraph.term_ofTerm (.app symbol args))

/-- What is stored for the forefront of a state is laid out. -/
theorem ProofState.settles_statement (s : ProofState)
    (covered : ∀ side, Vocabulary.plain.Covers (s.forefront.side side)) :
    s.statement.Settles s.ctx s.forefront where
  lhs := ⟨rfl, s.denotes_statement.lhs, covered .lhs⟩
  rhs := ⟨rfl, s.denotes_statement.rhs, covered .rhs⟩
  laidOutLeft := Backing.isLaidOut_stored _ _ _
  laidOutRight := Backing.isLaidOut_stored _ _ _

namespace Kernel

variable {k : Kernel} {ctx : Context} {s : Statement} {e : Equation}

/-- **Successors by edits.** If there is room for the rewrites of a statement, then the edits lead
to the listed expansions of its equation. What comes out is laid out again, so this can be repeated.
-/
theorem exists_storedSuccessors (bounded : k.IsBounded)
    (rules : ∀ rule ∈ k.rules, rule.statement.Keeps ctx rule.equation)
    (narrow : ∀ rule ∈ k.rules, IsNarrow rule.equation.vars) (settles : s.Settles ctx e)
    (room : k.HasRoom e) : Statement.Lists ctx (k.storedSuccessors s) (k.expansions ctx e) := by
  obtain ⟨w, hmove, keeps, own⟩ := settles.exists_moveAbove room.narrow_vars room.words
  rw [storedSuccessors, hmove, ok_bind, keeps.candidates_eq room.narrow_above, ok_bind]
  refine Statement.Lists.flatMapM (keeps.opens own) fun entry site opens hsite => ?_
  obtain ⟨part, hview, hpart⟩ := opens.shows
  rw [hview, ok_bind, equations, List.flatMap_map]
  refine Statement.Lists.flatMapM (P := Eq) (List.forall₂_refl _) ?_
  rintro rule _ rfl hrule
  obtain ⟨ways, hways, isUse⟩ :=
    Statement.exists_rewrites (rules rule hrule) hpart (narrow rule hrule)
  rw [hways, ok_bind]
  refine Statement.Lists.flatMapM isUse fun way use hway huse => ?_
  obtain ⟨next, hreplace, keeps'⟩ := opens.replaces way.replacement use.1 hway.keeps
  rw [hreplace, ok_bind, hway.unbound]
  have hlists := Statement.lists_assignments (w := e.above k.bound) room.narrow
    (fun id hid => List.mem_append_right _ hid) use.2 keeps' fun id hid => ?_
  · rwa [List.map_congr_left fun choice hchoice => Equation.foldl_assign_use hsite
      (fun _ => Equation.le_of_mem_above) (bounded _ (List.mem_map_of_mem hrule)) huse hchoice]
      at hlists
  · rcases Equation.mem_vars_replaceAt hsite hid with hid | hid
    · exact List.mem_append_right _ hid
    · rcases Equation.mem_vars_of_mem_uses huse hid with hid | hid
      · exact List.mem_append_right _ (Equation.vars_of_mem_sites hsite hid)
      · exact List.mem_append_left _
          (List.mem_flatMap.2 ⟨rule.equation, List.mem_map_of_mem hrule, hid⟩)

/-- The search and the edits find the same: the successors of a state have the equations that the
edits lead to from what is stored for it, without the repetitions if the kernel is so set. -/
theorem exists_isSuccessor_iff (homed : k.IsHomed)
    (rules : ∀ rule ∈ k.rules, rule.statement.Keeps k.ctx rule.equation)
    (narrow : ∀ rule ∈ k.rules, IsNarrow rule.equation.vars) {s : ProofState} (hctx : s.ctx = k.ctx)
    (covered : ∀ side, Vocabulary.plain.Covers (s.forefront.side side))
    (room : k.HasRoom s.forefront) :
    ∃ nexts, k.storedSuccessors s.statement = .ok nexts ∧
      ∀ e, (∃ t, k.IsSuccessor s t ∧ t.forefront = e) ↔
        (∃ next ∈ nexts, next.equation = e) ∧
          (k.options.noRepeats = true → e.repeats s.path = false) := by
  have settles := s.settles_statement covered
  rw [hctx] at settles
  obtain ⟨nexts, ok, each⟩ := exists_storedSuccessors homed.bounded rules narrow settles room
  have hequations : nexts.map Statement.equation = k.expansions s.ctx s.forefront := by
    rw [hctx, ← List.forall₂_eq_eq_eq, List.forall₂_map_left_iff]
    exact each.imp fun next e settles => settles.denotes.equation_eq
  refine ⟨nexts, ok, fun e => ?_⟩
  rw [← List.mem_map, hequations, ← mem_expected]
  constructor
  · rintro ⟨t, next, rfl⟩
    exact next.expected homed.bounded
  · exact exists_successor homed hctx room

end Kernel

end Equational
