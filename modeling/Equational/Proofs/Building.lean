import Equational.Proofs.Editing
import Equational.Proofs.Typing
import Equational.Statement.Reader

/-!
# Expressions and statements by their history

`Expression.Made` and `Statement.Made` are the values that come from reading and building by any
sequence of operations that succeed. Whatever the history is, the table of an expression is of
the context's vocabulary. It is in order if the history has no edits, which are the operations
that copy records behind those that are to hold them: replacing a position, and replacing
variables by expressions.
-/

namespace Equational

variable {ctx : Context} {edits : Prop}

/-! ### Tables in order -/

namespace TermGraph

variable {g g' other : TermGraph} {v : Vocabulary}

theorem IsOrdered.absorb (ordered : g.IsOrdered) (hother : other.IsOrdered) :
    (g.absorb other).2.IsOrdered := by
  rw [TermGraph.absorb]
  split
  next =>
    intro index r found j hj
    have found' : (g.records ++ other.records.map (Record.offset g.size))[index]? = some r := found
    rw [Array.getElem?_append] at found'
    split at found'
    next => exact ordered index r found' j hj
    next hge =>
      rw [Array.getElem?_map] at found'
      obtain ⟨r₀, found₀, rfl⟩ := Option.map_eq_some_iff.1 found'
      obtain ⟨node, hnode, heq⟩ := List.mem_map.1 hj
      cases node with
      | free id => cases heq
      | const symbol => cases heq
      | func j₀ =>
        obtain rfl := Node.func.inj heq
        have hlt := hother _ r₀ found₀ j₀ hnode
        have hsize : g.size = g.records.size := rfl
        omega
  next => exact ordered

theorem IsOrdered.relabel (ordered : g.IsOrdered) {label : Nat → Option Node}
    (leaves : ∀ id leaf, label id = some leaf → leaf.kind ≠ .func) :
    (g.relabel label).IsOrdered := by
  rw [TermGraph.relabel]
  split
  next id _ =>
    split
    next => exact isOrdered_leaf _
    next => exact ordered
  next =>
    intro index r found j hj
    have found' : (g.records.map _)[index]? = some r := found
    rw [Array.getElem?_map] at found'
    obtain ⟨r₀, found₀, rfl⟩ := Option.map_eq_some_iff.1 found'
    obtain ⟨node, hnode, heq⟩ := List.mem_map.1 hj
    cases node with
    | const symbol => cases heq
    | func j₀ =>
      obtain rfl := Node.func.inj heq
      exact ordered index r₀ found₀ j₀ hnode
    | free id =>
      rw [relabelNode] at heq
      cases hlabel : label id with
      | none => rw [hlabel] at heq; cases heq
      | some leaf =>
        rw [hlabel] at heq
        exact absurd (congrArg Node.kind heq) (leaves id leaf hlabel)

theorem IsOrdered.viewAt (ordered : g.IsOrdered) {node : Node} (ok : g.viewAt node = .ok g') :
    g'.IsOrdered := by
  cases node with
  | free id =>
    obtain rfl := Except.ok.inj ok
    exact isOrdered_leaf _
  | const symbol =>
    obtain rfl := Except.ok.inj ok
    exact isOrdered_leaf _
  | func index =>
    rw [TermGraph.viewAt, setRoot] at ok
    split at ok
    next =>
      obtain rfl := Except.ok.inj ok
      exact ordered
    next => cases ok

/-- The table with one more record, seen from that record. -/
def extend (g : TermGraph) (r : Record) : TermGraph := ⟨.func g.size, g.records.push r⟩

theorem of_add_ok {symbol : Nat} {args : List Node} (ok : g.add symbol args = .ok g') :
    args ≠ [] ∧ g'.setRoot (.func g.size) = .ok (g.extend ⟨symbol, args⟩) := by
  rw [add] at ok
  split at ok
  next => cases ok
  next hargs =>
    split at ok
    next => cases ok
    next =>
      obtain rfl := Except.ok.inj ok
      refine ⟨by simpa using hargs, ?_⟩
      rw [setRoot, if_pos]
      · rfl
      · show g.size < (g.records.push _).size
        rw [Array.size_push]
        exact Nat.lt_succ_self _

theorem RecordsIn.isOf_extend (h : g.RecordsIn v) {r : Record} (allowed : v.AllowsRecord g.size r) :
    (g.extend r).IsOf v := by
  have hsize : (g.extend r).size = g.size + 1 := Array.size_push r
  refine ⟨?_, ?_, fun hleaf => absurd rfl hleaf⟩
  · intro r' hr'
    rw [hsize]
    rcases Array.mem_push.1 hr' with hr' | rfl
    · exact (h r' hr').mono (Nat.le_succ _)
    · exact allowed.mono (Nat.le_succ _)
  · rw [hsize]
    exact Nat.lt_succ_self _

theorem IsOrdered.extend (ordered : g.IsOrdered) {r : Record}
    (allowed : ∀ node ∈ r.args, v.Allows g.size node) : (g.extend r).IsOrdered := by
  intro index r' found j hj
  have found' : (g.records.push r)[index]? = some r' := found
  rw [Array.getElem?_push] at found'
  split at found'
  next hindex =>
    obtain rfl := Option.some.inj found'
    exact hindex ▸ allowed _ hj
  next => exact ordered index r' found' j hj

end TermGraph

theorem Context.arityOf_eq_ok_iff {symbol arity : Nat} :
    ctx.arityOf symbol = .ok arity ↔ ctx.signature.declares symbol arity = true := by
  rw [arityOf, Signature.declares, beq_iff_eq]
  cases ctx.signature.arity? symbol <;> simp [Violation.unless]

/-! ### Expressions -/

namespace Expression

variable {e e' : Expression}

/-- The expressions of a context that come from operations that succeed. The proposition says
whether edits are among the operations. -/
inductive Made (ctx : Context) (edits : Prop) : Expression → Prop
  | free (id : Nat) : Made ctx edits (.free ctx id)
  | constant {symbol : Nat} {e : Expression} (ok : Expression.constant ctx symbol = .ok e) :
      Made ctx edits e
  | func {symbol : Nat} {args : List Expression} {e : Expression}
      (each : ∀ arg ∈ args, Made ctx edits arg) (ok : Expression.func ctx symbol args = .ok e) :
      Made ctx edits e
  | ofFormula {f : Formula} {e : Expression} (typed : f.isTyped ctx.signature = true)
      (ok : Expression.ofFormula ctx f = .ok e) : Made ctx edits e
  | viewAt {e e' : Expression} {node : Node} (made : Made ctx edits e)
      (known : ∀ symbol, node = .const symbol → ctx.signature.declares symbol 0 = true)
      (ok : e.viewAt node = .ok e') : Made ctx edits e'
  | freeToFree {e e' : Expression} {id other : Nat} (made : Made ctx edits e)
      (ok : e.freeToFree id other = .ok e') : Made ctx edits e'
  | freeToConst {e e' : Expression} {id symbol : Nat} (made : Made ctx edits e)
      (ok : e.freeToConst id symbol = .ok e') : Made ctx edits e'
  | shift {e e' : Expression} {n : Nat} (made : Made ctx edits e) (ok : e.shift n = .ok e') :
      Made ctx edits e'
  | compact {e e' : Expression} (made : Made ctx edits e) (ok : e.compact = .ok e') :
      Made ctx edits e'
  | mapFree {e e' : Expression} {images : DenseMap Expression} (allowed : edits)
      (made : Made ctx edits e)
      (each : ∀ id image, images.lookup id = some image → Made ctx edits image)
      (ok : e.mapFree images = .ok e') : Made ctx edits e'
  | replace {e e' new : Expression} {p : Position} (allowed : edits) (made : Made ctx edits e)
      (makes : Made ctx edits new) (hp : p ∈ e.positions) (ok : e.replace p.slot new = .ok e') :
      Made ctx edits e'

/-! #### What the operations give -/

theorem of_constant_ok {symbol : Nat} (ok : constant ctx symbol = .ok e) :
    ctx.signature.declares symbol 0 = true ∧ e = ofGraph ctx { root := .const symbol } := by
  obtain ⟨arity, harity, ok⟩ := bind_eq_ok.1 ok
  obtain ⟨name, -, ok⟩ := bind_eq_ok.1 ok
  obtain ⟨_, hzero, ok⟩ := bind_eq_ok.1 ok
  obtain rfl := beq_iff_eq.1 (require_eq_ok.1 hzero)
  exact ⟨Context.arityOf_eq_ok_iff.1 harity, (Except.ok.inj ok).symm⟩

theorem of_func_ok {symbol : Nat} {args : List Expression} (ok : func ctx symbol args = .ok e) :
    args ≠ [] ∧ ctx.signature.declares symbol args.length = true ∧
      e = ofGraph ctx ((gather args .empty).2.extend ⟨symbol, (gather args .empty).1⟩) := by
  obtain ⟨arity, harity, ok⟩ := bind_eq_ok.1 ok
  obtain ⟨name, -, ok⟩ := bind_eq_ok.1 ok
  obtain ⟨_, hcount, ok⟩ := bind_eq_ok.1 ok
  obtain ⟨g, hadd, ok⟩ := bind_eq_ok.1 ok
  obtain ⟨g', hroot, ok⟩ := bind_eq_ok.1 ok
  obtain rfl := beq_iff_eq.1 (require_eq_ok.1 hcount)
  obtain ⟨hnodes, hextend⟩ := TermGraph.of_add_ok hadd
  obtain rfl := Except.ok.inj (hextend.symm.trans hroot)
  refine ⟨?_, Context.arityOf_eq_ok_iff.1 harity, (Except.ok.inj ok).symm⟩
  rintro rfl
  exact hnodes rfl

theorem of_viewAt_ok {node : Node} (ok : e.viewAt node = .ok e') :
    e'.ctx = e.ctx ∧ e.graph.viewAt node = .ok e'.graph := by
  obtain ⟨stored, hstored, ok⟩ := bind_eq_ok.1 ok
  obtain rfl := Except.ok.inj ok
  refine ⟨rfl, ?_⟩
  show e.stored.graph.viewAt node = .ok stored.graph
  cases node with
  | free id => rw [← Except.ok.inj hstored]; rfl
  | const symbol => rw [← Except.ok.inj hstored]; rfl
  | func index =>
    obtain ⟨g, hg, hstored⟩ := bind_eq_ok.1 hstored
    rw [← Except.ok.inj hstored]
    split
    · exact hg
    · exact hg

theorem of_ofFormula_ok {f : Formula} (ok : ofFormula ctx f = .ok e) :
    ∃ t, f.term = .ok t ∧ e = ofTerm ctx t := by
  obtain ⟨t, hterm, ok⟩ := bind_eq_ok.1 ok
  exact ⟨t, hterm, (Except.ok.inj ok).symm⟩

/-- The expression stays as it is, or some of its variables become leaves that are allowed. -/
def Relabels (allowed : Node → Prop) (e e' : Expression) : Prop :=
  e' = e ∨ ∃ label : Nat → Option Node, (∀ id leaf, label id = some leaf → allowed leaf) ∧
    e' = e.withGraph (e.graph.relabel label)

theorem relabels_assigned (e : Expression) (id : Nat) (leaf : Node) :
    e.Relabels (· = leaf) (e.assigned id leaf) := by
  rw [assigned]
  split
  · refine .inr ⟨_, fun i other hother => ?_, rfl⟩
    split at hother <;> cases hother
    rfl
  · exact .inl rfl

theorem relabels_shifted (e : Expression) (n : Nat) :
    e.Relabels (fun leaf => ∃ id, leaf = .free id) (e.shifted n) := by
  rw [shifted]
  split
  · exact .inl rfl
  · refine .inr ⟨fun id => some (.free (id + n)), fun id leaf hleaf => ?_, rfl⟩
    exact ⟨id + n, (Option.some.inj hleaf).symm⟩

namespace Relabels

variable {allowed : Node → Prop}

theorem ctx_eq (h : e.Relabels allowed e') : e'.ctx = e.ctx := by
  rcases h with rfl | ⟨label, -, rfl⟩ <;> rfl

theorem isOf {v : Vocabulary} (h : e.Relabels allowed e') (formed : e.graph.IsOf v)
    (leaves : ∀ leaf, allowed leaf → v.Allows 0 leaf) : e'.graph.IsOf v := by
  rcases h with rfl | ⟨label, hlabel, rfl⟩
  · exact formed
  · exact formed.relabel fun id leaf hleaf => leaves leaf (hlabel id leaf hleaf)

theorem isOrdered (h : e.Relabels allowed e') (ordered : e.graph.IsOrdered)
    (leaves : ∀ leaf, allowed leaf → leaf.kind ≠ .func) : e'.graph.IsOrdered := by
  rcases h with rfl | ⟨label, hlabel, rfl⟩
  · exact ordered
  · exact ordered.relabel fun id leaf hleaf => leaves leaf (hlabel id leaf hleaf)

end Relabels

theorem of_freeToConst_ok {id symbol : Nat} (ok : e.freeToConst id symbol = .ok e') :
    e.ctx.signature.declares symbol 0 = true ∧ e.Fits ∧ e' = e.assigned id (.const symbol) := by
  obtain ⟨arity, harity, ok⟩ := bind_eq_ok.1 ok
  obtain ⟨_, hzero, ok⟩ := bind_eq_ok.1 ok
  obtain rfl := beq_iff_eq.1 (require_eq_ok.1 hzero)
  exact ⟨Context.arityOf_eq_ok_iff.1 harity, assignFree_eq_ok_iff.1 ok⟩

theorem substituted_cases (e : Expression) (image : Nat → Option Expression) :
    e.substituted image = e ∨ (∃ id, image id = some (e.substituted image)) ∨
      ∃ index, e.graph.root = .func index ∧
        e.substituted image =
          e.withGraph ((TermGraph.ofTerm e.term).fill fun id => (image id).map graph) := by
  rw [substituted]
  split
  next id _ =>
    cases himage : image id with
    | none => exact .inl rfl
    | some other => exact .inr (.inl ⟨id, himage⟩)
  next => exact .inl rfl
  next index hroot =>
    split
    · exact .inr (.inr ⟨index, hroot, rfl⟩)
    · exact .inl rfl

theorem of_replace_ok {slot : Option (Nat × Nat)} {new : Expression}
    (ok : e.replace slot new = .ok e') :
    e' = new ∨ ∃ index k g, slot = some (index, k) ∧ e.graph.replaceArg index k new.graph = .ok g ∧
      e' = e.withGraph g := by
  cases slot with
  | none => exact .inl (Except.ok.inj ok).symm
  | some place =>
    obtain ⟨g, hg, ok⟩ := bind_eq_ok.1 ok
    exact .inr ⟨place.1, place.2, g, rfl, hg, (Except.ok.inj ok).symm⟩

theorem prepared_gather {v : Vocabulary} {g : TermGraph} (h : g.RecordsIn v)
    {args : List Expression} (each : ∀ arg ∈ args, arg.graph.IsOf v) :
    TermGraph.Prepared v g args.length (gather args g) := by
  induction args generalizing g with
  | nil => exact h.prepared_nil
  | cons arg args ih =>
    have harg := each arg List.mem_cons_self
    exact (ih (h.absorb harg).1 fun a ha => each a (List.mem_cons_of_mem _ ha)).cons_absorb h harg

theorem prepared_gather_empty {v : Vocabulary} {args : List Expression}
    (each : ∀ arg ∈ args, arg.graph.IsOf v) :
    TermGraph.Prepared v .empty args.length (gather args .empty) :=
  prepared_gather (TermGraph.isOf_leaf (.free 0) trivial).records each

theorem isOrdered_gather {g : TermGraph} (h : g.IsOrdered) {args : List Expression}
    (each : ∀ arg ∈ args, arg.graph.IsOrdered) : (gather args g).2.IsOrdered := by
  induction args generalizing g with
  | nil => exact h
  | cons arg args ih =>
    exact ih (h.absorb (each arg List.mem_cons_self)) fun a ha => each a (List.mem_cons_of_mem _ ha)

/-! #### What every history keeps -/

theorem Made.ctx_eq (made : e.Made ctx edits) : e.ctx = ctx := by
  induction made with
  | free id => rfl
  | constant ok => rw [(of_constant_ok ok).2, ofGraph]
  | func _ ok _ => rw [(of_func_ok ok).2.2, ofGraph]
  | ofFormula _ ok =>
    obtain ⟨t, -, rfl⟩ := of_ofFormula_ok ok
    rfl
  | viewAt _ _ ok ih => rw [(of_viewAt_ok ok).1, ih]
  | freeToFree _ ok ih => rw [(assignFree_eq_ok_iff.1 ok).2, (relabels_assigned _ _ _).ctx_eq, ih]
  | freeToConst _ ok ih => rw [(of_freeToConst_ok ok).2.2, (relabels_assigned _ _ _).ctx_eq, ih]
  | shift _ ok ih => rw [(shift_eq_ok_iff.1 ok).2, (relabels_shifted _ _).ctx_eq, ih]
  | compact _ ok ih =>
    obtain ⟨-, rfl⟩ := compact_eq_ok_iff.1 ok
    rw [ctx_compacted, ih]
  | @mapFree e e' images _ _ _ ok ih ihimages =>
    obtain ⟨-, rfl⟩ := mapFree_eq_ok_iff.1 ok
    rcases e.substituted_cases images.lookup with h | ⟨id, h⟩ | ⟨_, -, h⟩
    · rw [h, ih]
    · exact ihimages id _ h
    · rw [h]
      exact ih
  | replace _ _ _ _ ok ih ihnew =>
    rcases of_replace_ok ok with rfl | ⟨_, _, g, -, -, rfl⟩
    · exact ihnew
    · exact ih

/-- **Tables of the context.** No history takes a symbol from elsewhere, or uses one with another
number of arguments, in any record. -/
theorem Made.isOf (built : ctx.Built) (made : e.Made ctx edits) :
    e.graph.IsOf ctx.vocabulary := by
  induction made with
  | free id => exact TermGraph.isOf_leaf _ trivial
  | constant ok =>
    obtain ⟨known, rfl⟩ := of_constant_ok ok
    exact TermGraph.isOf_leaf _ known
  | @func symbol args e _ ok ih =>
    obtain ⟨hargs, known, rfl⟩ := of_func_ok ok
    have gathered := prepared_gather_empty ih
    refine gathered.records.isOf_extend ⟨?_, gathered.nodes⟩
    rw [Record.arity, gathered.length]
    exact ⟨List.length_pos_iff.2 hargs, built.arity_le known, known⟩
  | ofFormula typed ok =>
    obtain ⟨t, hterm, rfl⟩ := of_ofFormula_ok ok
    exact TermGraph.isOf_ofTerm (Formula.covers_term built typed hterm)
  | viewAt _ known ok ih => exact ih.viewAt known (of_viewAt_ok ok).2
  | freeToFree _ ok ih =>
    obtain ⟨-, rfl⟩ := assignFree_eq_ok_iff.1 ok
    refine (relabels_assigned _ _ _).isOf ih ?_
    rintro leaf rfl
    trivial
  | freeToConst made ok ih =>
    obtain ⟨known, -, rfl⟩ := of_freeToConst_ok ok
    rw [made.ctx_eq] at known
    refine (relabels_assigned _ _ _).isOf ih ?_
    rintro leaf rfl
    exact known
  | shift _ ok ih =>
    obtain ⟨-, rfl⟩ := shift_eq_ok_iff.1 ok
    refine (relabels_shifted _ _).isOf ih ?_
    rintro leaf ⟨id, rfl⟩
    trivial
  | compact _ ok ih =>
    obtain ⟨-, rfl⟩ := compact_eq_ok_iff.1 ok
    rw [graph_compacted]
    exact ih.compacted
  | @mapFree e e' images _ _ _ ok ih ihimages =>
    obtain ⟨-, rfl⟩ := mapFree_eq_ok_iff.1 ok
    rcases e.substituted_cases images.lookup with h | ⟨id, h⟩ | ⟨_, -, h⟩
    · rw [h]
      exact ih
    · exact ihimages id _ h
    · rw [h]
      refine (TermGraph.isOf_ofTerm ih.covers_term).fill fun id other hother => ?_
      obtain ⟨image, himage, rfl⟩ := Option.map_eq_some_iff.1 hother
      exact ihimages id image himage
  | replace _ _ _ hp ok ih ihnew =>
    rcases of_replace_ok ok with rfl | ⟨index, k, g, hslot, hg, rfl⟩
    · exact ihnew
    · -- A slot that holds a position is one of a table that the root is in.
      exact ih.replaceArg ihnew (TermGraph.kind_root_of_slot hp (by simp [hslot])) hg

theorem Made.isOrdered (built : ctx.Built) (made : e.Made ctx edits) (unedited : ¬edits) :
    e.graph.IsOrdered := by
  induction made with
  | free id => exact TermGraph.isOrdered_leaf _
  | constant ok =>
    obtain ⟨-, rfl⟩ := of_constant_ok ok
    exact TermGraph.isOrdered_leaf _
  | func each ok ih =>
    obtain ⟨-, -, rfl⟩ := of_func_ok ok
    have gathered := prepared_gather_empty fun arg harg => (each arg harg).isOf built
    exact (isOrdered_gather (TermGraph.isOrdered_leaf _) ih).extend gathered.nodes
  | ofFormula _ ok =>
    obtain ⟨t, -, rfl⟩ := of_ofFormula_ok ok
    exact TermGraph.isOrdered_ofTerm t
  | viewAt _ _ ok ih => exact ih.viewAt (of_viewAt_ok ok).2
  | freeToFree _ ok ih =>
    obtain ⟨-, rfl⟩ := assignFree_eq_ok_iff.1 ok
    refine (relabels_assigned _ _ _).isOrdered ih ?_
    rintro leaf rfl
    exact nofun
  | freeToConst _ ok ih =>
    obtain ⟨-, -, rfl⟩ := of_freeToConst_ok ok
    refine (relabels_assigned _ _ _).isOrdered ih ?_
    rintro leaf rfl
    exact nofun
  | shift _ ok ih =>
    obtain ⟨-, rfl⟩ := shift_eq_ok_iff.1 ok
    refine (relabels_shifted _ _).isOrdered ih ?_
    rintro leaf ⟨id, rfl⟩
    exact nofun
  | compact made ok _ =>
    obtain ⟨-, rfl⟩ := compact_eq_ok_iff.1 ok
    rw [graph_compacted]
    exact (made.isOf built).isOrdered_compacted
  | mapFree allowed => exact absurd allowed unedited
  | replace allowed => exact absurd allowed unedited

end Expression

/-! ### Statements -/

/-- Resolving a line gives an equation that passes the test. -/
theorem ParseTree.typeChecks_of_resolve {tree : ParseTree} {f : Formula}
    (ok : tree.resolve ctx = .ok f) : f.typeChecks ctx.signature = true := by
  cases tree with
  | equality lhs rhs =>
    rw [resolve_equality] at ok
    obtain ⟨⟨l, known⟩, hl, ok⟩ := bind_eq_ok.1 ok
    obtain ⟨⟨r, known'⟩, hr, ok⟩ := bind_eq_ok.1 ok
    obtain rfl := Except.ok.inj ok
    rw [Formula.typeChecks, isTyped_of_resolveTerm hl, isTyped_of_resolveTerm hr]
    rfl
  | name text args column =>
    obtain ⟨⟨f', known⟩, hf, ok⟩ := bind_eq_ok.1 ok
    obtain rfl := Except.ok.inj ok
    rw [resolveIn_eq] at hf
    have htyped := isTyped_of_resolveTerm hf
    cases f' with
    | equality => cases htyped
    | free | const | func => exact htyped

namespace Statement

variable {s s' : Statement}

/-- The statements of a context that come from operations that succeed. The proposition says
whether edits are among the operations. -/
inductive Made (ctx : Context) (edits : Prop) : Statement → Prop
  | ofSides {lhs rhs : Expression} {s : Statement} (left : lhs.Made ctx edits)
      (right : rhs.Made ctx edits) (ok : Statement.ofSides lhs rhs = .ok s) : Made ctx edits s
  | ofFormula {f : Formula} {s : Statement} (typed : f.typeChecks ctx.signature = true)
      (ok : Statement.ofFormula ctx f = .ok s) : Made ctx edits s
  | read {source : String} {ss : List Statement} {s : Statement}
      (ok : Statement.readSource ctx source = .ok ss) (hs : s ∈ ss) : Made ctx edits s
  | transpose {s : Statement} (made : Made ctx edits s) : Made ctx edits s.transpose
  | freeToFree {s s' : Statement} {id other : Nat} (made : Made ctx edits s)
      (ok : s.freeToFree id other = .ok s') : Made ctx edits s'
  | freeToConst {s s' : Statement} {id symbol : Nat} (made : Made ctx edits s)
      (ok : s.freeToConst id symbol = .ok s') : Made ctx edits s'
  | shift {s s' : Statement} {n : Nat} (made : Made ctx edits s) (ok : s.shift n = .ok s') :
      Made ctx edits s'
  | compact {s s' : Statement} (made : Made ctx edits s) (ok : s.compact = .ok s') :
      Made ctx edits s'
  | mapFree {s s' : Statement} {images : DenseMap Expression} (allowed : edits)
      (made : Made ctx edits s)
      (each : ∀ id image, images.lookup id = some image → image.Made ctx edits)
      (ok : s.mapFree images = .ok s') : Made ctx edits s'
  | replace {s s' : Statement} {new : Expression} {side : Side} {p : Position} (allowed : edits)
      (made : Made ctx edits s) (makes : new.Made ctx edits) (hp : (side, p) ∈ s.positions)
      (ok : s.replace side p.slot new = .ok s') : Made ctx edits s'

theorem mem_positions_iff {side : Side} {p : Position} :
    (side, p) ∈ s.positions ↔ p ∈ (s.side side).positions := by
  cases side <;> simp [positions, Statement.side]

/-- Both sides have the history that the statement has. -/
def SidesMade (ctx : Context) (edits : Prop) (s : Statement) : Prop :=
  s.ctx = ctx ∧ ∀ side, (s.side side).Made ctx edits

theorem sidesMade_of_ofSides {lhs rhs : Expression} (left : lhs.Made ctx edits)
    (right : rhs.Made ctx edits) (ok : ofSides lhs rhs = .ok s) : s.SidesMade ctx edits := by
  obtain ⟨_, -, ok⟩ := bind_eq_ok.1 ok
  obtain rfl := Except.ok.inj ok
  refine ⟨left.ctx_eq, ?_⟩
  rintro (_ | _)
  · exact left
  · have hrhs : Statement.side ⟨lhs.ctx, lhs.stored, rhs.stored⟩ .rhs = rhs := by
      show Expression.mk lhs.ctx rhs.stored = rhs
      rw [left.ctx_eq, ← right.ctx_eq]
    rw [hrhs]
    exact right

theorem sidesMade_of_onSides {f : Expression → Checked Expression}
    (each : ∀ side e, f (s.side side) = .ok e → e.Made ctx edits)
    (ok : s.onSides f = .ok s') : s'.SidesMade ctx edits := by
  obtain ⟨lhs, hlhs, ok⟩ := bind_eq_ok.1 ok
  obtain ⟨rhs, hrhs, ok⟩ := bind_eq_ok.1 ok
  exact sidesMade_of_ofSides (each .lhs lhs hlhs) (each .rhs rhs hrhs) ok

theorem sidesMade_of_ofFormula {f : Formula} (typed : f.typeChecks ctx.signature = true)
    (ok : ofFormula ctx f = .ok s) : s.SidesMade ctx edits := by
  obtain ⟨e, hequation, ok⟩ := bind_eq_ok.1 ok
  obtain rfl := Except.ok.inj ok
  cases f with
  | free | const | func => cases hequation
  | equality lhs rhs =>
    obtain ⟨l, hl, hequation⟩ := bind_eq_ok.1 hequation
    obtain ⟨r, hr, hequation⟩ := bind_eq_ok.1 hequation
    obtain rfl := Except.ok.inj hequation
    rw [Formula.typeChecks, Bool.and_eq_true] at typed
    refine ⟨rfl, ?_⟩
    rintro (_ | _)
    · exact .ofFormula typed.1 (bind_eq_ok.2 ⟨l, hl, rfl⟩)
    · exact .ofFormula typed.2 (bind_eq_ok.2 ⟨r, hr, rfl⟩)

theorem exists_ofFormula_of_mem_readSource {source : String} {ss : List Statement}
    (ok : readSource ctx source = .ok ss) (hs : s ∈ ss) :
    ∃ f : Formula, f.typeChecks ctx.signature = true ∧ ofFormula ctx f = .ok s := by
  obtain ⟨formulas, hformulas, ok⟩ := bind_eq_ok.1 ok
  obtain rfl := Except.ok.inj ok
  obtain ⟨f, hf, hs⟩ := List.mem_filterMap.1 hs
  rw [Formula.readSource_eq] at hformulas
  obtain ⟨trees, -, hformulas⟩ := bind_eq_ok.1 hformulas
  obtain ⟨⟨number, tree⟩, -, hresolve⟩ := mem_of_mapM_ok hformulas hf
  refine ⟨f, ?_, ?_⟩
  · cases htree : tree.resolve ctx with
    | error =>
      rw [htree] at hresolve
      cases hresolve
    | ok f' =>
      rw [htree] at hresolve
      obtain rfl := Except.ok.inj hresolve
      exact ParseTree.typeChecks_of_resolve htree
  · exact toOption_eq_some.1 hs

theorem Made.sides (made : s.Made ctx edits) : s.SidesMade ctx edits := by
  induction made with
  | ofSides left right ok => exact sidesMade_of_ofSides left right ok
  | ofFormula typed ok => exact sidesMade_of_ofFormula typed ok
  | read ok hs =>
    obtain ⟨f, typed, ok⟩ := exists_ofFormula_of_mem_readSource ok hs
    exact sidesMade_of_ofFormula typed ok
  | transpose _ ih =>
    refine ⟨ih.1, ?_⟩
    rintro (_ | _)
    · exact ih.2 .rhs
    · exact ih.2 .lhs
  | freeToFree _ ok ih =>
    exact sidesMade_of_onSides (fun side e he => (ih.2 side).freeToFree he) ok
  | freeToConst _ ok ih =>
    exact sidesMade_of_onSides (fun side e he => (ih.2 side).freeToConst he) ok
  | shift _ ok ih => exact sidesMade_of_onSides (fun side e he => (ih.2 side).shift he) ok
  | compact _ ok ih => exact sidesMade_of_onSides (fun side e he => (ih.2 side).compact he) ok
  | mapFree allowed _ each ok ih =>
    exact sidesMade_of_onSides (fun side e he => .mapFree allowed (ih.2 side) each he) ok
  | @replace s s' new side p allowed _ makes hp ok ih =>
    have replaced : ∀ e, (s.side side).replace p.slot new = .ok e → e.Made ctx edits :=
      fun e he => .replace allowed (ih.2 side) makes (mem_positions_iff.1 hp) he
    cases side with
    | lhs =>
      obtain ⟨e, he, ok⟩ := bind_eq_ok.1 ok
      exact sidesMade_of_ofSides (replaced e he) (ih.2 .rhs) ok
    | rhs =>
      obtain ⟨e, he, ok⟩ := bind_eq_ok.1 ok
      exact sidesMade_of_ofSides (ih.2 .lhs) (replaced e he) ok

end Statement

end Equational
