import Equational.Proofs.Archive
import Equational.Proofs.Forest
import Equational.Proofs.Meeting

/-!
# Layouts

A stored term that is laid out anew has one record for each occurrence of an application, in
post-order: those below an occurrence and those to the left of it come first. So the layout depends
on the term alone, whatever the old table was, and comparing layouts is comparing terms
(`Expression.layouts_are_canonical`). Walking through two tables side by side compares the terms as
well, without building them (`TermGraph.reducePair_comparison`).

A leaf at the root is left as it is, with all its records if it has any. No operation on expressions
gives such a table, but a table can be built that way (`Expression.compact_abandoned`).
-/

namespace Equational

/-! ### Applications in post-order -/

/-- The end of one path comes before the end of the other in post-order: it is below it, or to the
left of it. -/
def Occurrence.Precedes : List Nat → List Nat → Prop
  | [], _ => False
  | _ :: _, [] => True
  | i :: path, j :: path' => i < j ∨ i = j ∧ Precedes path path'

namespace Term

mutual
/-- The occurrences of applications, each after those below it, from left to right. -/
def applications : Term → List Occurrence
  | .var _ | .const _ => []
  | .app symbol args => applicationsArgs 0 args ++ [⟨[], .app symbol args⟩]
/-- The applications below a list of arguments of which the first is number `i`. -/
def applicationsArgs (i : Nat) : List Term → List Occurrence
  | [] => []
  | t :: ts => t.applications.map (.below i) ++ applicationsArgs (i + 1) ts
end

theorem mem_applicationsArgs {n : Nat} {ts : List Term} {o : Occurrence} :
    o ∈ applicationsArgs n ts ↔
      ∃ (i : Nat) (t : Term), ts[i]? = some t ∧
        ∃ inner ∈ t.applications, inner.below (n + i) = o := by
  induction ts generalizing n with
  | nil => simp [applicationsArgs]
  | cons t ts ih =>
    simp only [applicationsArgs, List.mem_append, List.mem_map, ih]
    constructor
    · rintro (⟨inner, hmem, rfl⟩ | ⟨i, u, hu, inner, hmem, rfl⟩)
      · exact ⟨0, t, rfl, inner, hmem, rfl⟩
      · exact ⟨i + 1, u, hu, inner, hmem, by rw [Nat.add_assoc, Nat.add_comm 1]⟩
    · rintro ⟨i, u, hu, inner, hmem, rfl⟩
      cases i with
      | zero =>
        obtain rfl : t = u := by simpa using hu
        exact .inl ⟨inner, hmem, rfl⟩
      | succ i => exact .inr ⟨i, u, hu, inner, hmem, by rw [Nat.add_assoc, Nat.add_comm 1]⟩

theorem mem_applications {t : Term} {o : Occurrence} :
    o ∈ t.applications ↔ t.HasAt o.path o.term ∧ ∃ symbol args, o.term = .app symbol args := by
  induction t generalizing o with
  | var id =>
    obtain ⟨path, u⟩ := o
    simp only [applications, List.not_mem_nil, false_iff, not_and]
    rintro ⟨⟩ ⟨_, _, happ⟩
    cases happ
  | const symbol =>
    obtain ⟨path, u⟩ := o
    simp only [applications, List.not_mem_nil, false_iff, not_and]
    rintro ⟨⟩ ⟨_, _, happ⟩
    cases happ
  | app symbol args ih =>
    simp only [applications, List.mem_append, mem_applicationsArgs, Nat.zero_add,
      List.mem_singleton]
    constructor
    · rintro (⟨i, t, ht, inner, hmem, rfl⟩ | rfl)
      · obtain ⟨hat, happ⟩ := (ih t (List.mem_of_getElem? ht)).1 hmem
        exact ⟨.arg ht hat, happ⟩
      · exact ⟨.root _, _, _, rfl⟩
    · obtain ⟨path, u⟩ := o
      rintro ⟨hat, happ⟩
      cases hat with
      | root => exact .inr rfl
      | @arg _ i _ t _ path ht below =>
        refine .inl ⟨i, t, ht, ⟨path, u⟩, ?_, rfl⟩
        exact (ih t (List.mem_of_getElem? ht)).2 ⟨below, happ⟩

theorem pairwise_applicationsArgs {ts : List Term}
    (each : ∀ t ∈ ts, (t.applications.map Occurrence.path).Pairwise Occurrence.Precedes) (n : Nat) :
    ((applicationsArgs n ts).map Occurrence.path).Pairwise Occurrence.Precedes := by
  induction ts generalizing n with
  | nil => exact .nil
  | cons t ts ih =>
    rw [applicationsArgs, List.map_append, List.pairwise_append]
    refine ⟨?_, ih (fun t' ht' => each t' (List.mem_cons_of_mem _ ht')) (n + 1), ?_⟩
    · rw [List.map_map, List.pairwise_map]
      apply (List.pairwise_map.1 (each t List.mem_cons_self)).imp
      intro o o' h
      exact .inr ⟨rfl, h⟩
    · intro path hpath path' hpath'
      simp only [List.map_map, List.mem_map, Function.comp_apply] at hpath hpath'
      obtain ⟨o, -, rfl⟩ := hpath
      obtain ⟨_, ho', rfl⟩ := hpath'
      obtain ⟨i, -, -, o', -, rfl⟩ := mem_applicationsArgs.1 ho'
      exact .inl (by omega)

/-- The applications are listed in post-order, so none is listed twice. -/
theorem pairwise_applications (t : Term) :
    (t.applications.map Occurrence.path).Pairwise Occurrence.Precedes := by
  induction t with
  | var id => exact .nil
  | const symbol => exact .nil
  | app symbol args ih =>
    rw [applications, List.map_append, List.pairwise_append]
    refine ⟨pairwise_applicationsArgs ih 0, List.pairwise_singleton _ _, ?_⟩
    intro path hpath path' hpath'
    obtain ⟨_, ho, rfl⟩ := List.mem_map.1 hpath
    obtain ⟨i, -, -, o, -, rfl⟩ := mem_applicationsArgs.1 ho
    obtain rfl : path' = [] := by simpa using hpath'
    trivial

end Term

namespace TermGraph

variable {a b g : TermGraph} {x y : Node} {t u : Term}

/-! ### The table of a layout -/

/-- The table has one record for each application of the term, in the same order. -/
structure LaysOut (g : TermGraph) (t : Term) : Prop where
  size : g.size = t.applications.length
  places : ∀ k o, t.applications[k]? = some o →
    g.Leads g.root o.path (.func k) ∧ g.Stores (.func k) o.term
  ordered : g.IsOrdered

theorem exists_layOutArgs_eq (ts : List Term) (records : Array Record) :
    ∃ more, (layOutArgs ts records).2 = records ++ more := by
  refine (laidOut_layOutArgs (v := ⟨fun _ => True, fun _ _ => True⟩) records ?_).grows
  intro t _ records
  exact laidOut_layOut (Vocabulary.any_covers t) records

theorem size_layOutArgs {ts : List Term}
    (each : ∀ t ∈ ts, ∀ records : Array Record,
      (layOut t records).2.size = records.size + t.applications.length)
    (n : Nat) (records : Array Record) :
    (layOutArgs ts records).2.size = records.size + (Term.applicationsArgs n ts).length := by
  induction ts generalizing n records with
  | nil => rfl
  | cons t ts ih =>
    have each' := fun t' ht' => each t' (List.mem_cons_of_mem t ht')
    have hrest := ih each' (n + 1) (layOut t records).2
    have hfirst := each t List.mem_cons_self records
    simp only [layOutArgs, Term.applicationsArgs, List.length_append, List.length_map]
    omega

theorem size_layOut (t : Term) (records : Array Record) :
    (layOut t records).2.size = records.size + t.applications.length := by
  induction t generalizing records with
  | var id => rfl
  | const symbol => rfl
  | app symbol args ih =>
    have hargs := size_layOutArgs ih 0 records
    simp only [layOut, Term.applications, Array.size_push, List.length_append,
      List.length_singleton]
    omega

/-- The records that have been laid out are still in the table. -/
def Includes (g : TermGraph) (records : Array Record) : Prop :=
  ∀ (index : Nat) (r : Record), records[index]? = some r → g.records[index]? = some r

theorem Includes.of_append {records all : Array Record} (h : g.Includes all) {more : Array Record}
    (split : all = records ++ more) : g.Includes records := by
  intro index r found
  have hlt : index < records.size := (Array.getElem?_eq_some_iff.1 found).1
  apply h
  rw [split, Array.getElem?_append_left hlt]
  exact found

/-- The `k`-th application below the arguments has the `k`-th record that is added for them. -/
theorem leads_layOutArgs {ts : List Term}
    (each : ∀ t ∈ ts, ∀ records : Array Record, g.Includes (layOut t records).2 → ∀ k o,
      t.applications[k]? = some o →
        g.Leads (layOut t records).1 o.path (.func (records.size + k)))
    {n : Nat} {records : Array Record} (included : g.Includes (layOutArgs ts records).2) {k : Nat}
    {o : Occurrence} (nth : (Term.applicationsArgs n ts)[k]? = some o) :
    ∃ i node path, o.path = (n + i) :: path ∧ (layOutArgs ts records).1[i]? = some node ∧
      g.Leads node path (.func (records.size + k)) := by
  induction ts generalizing n records k with
  | nil => cases nth
  | cons t ts ih =>
    rw [Term.applicationsArgs] at nth
    rw [layOutArgs] at included ⊢
    by_cases hk : k < t.applications.length
    · -- The records for the first argument come first, and stay when the others are laid out.
      rw [List.getElem?_append_left (by simpa using hk), List.getElem?_map] at nth
      obtain ⟨inner, hinner, rfl⟩ := Option.map_eq_some_iff.1 nth
      obtain ⟨more, hmore⟩ := exists_layOutArgs_eq ts (layOut t records).2
      have included' : g.Includes (layOut t records).2 := included.of_append hmore
      exact ⟨0, _, inner.path, rfl, rfl, each t List.mem_cons_self records included' k inner hinner⟩
    · rw [List.getElem?_append_right (by simpa using hk), List.length_map] at nth
      have each' := fun t' ht' => each t' (List.mem_cons_of_mem t ht')
      obtain ⟨i, node, path, hpath, hnode, way⟩ := ih each' included nth
      rw [size_layOut, Nat.add_assoc, Nat.add_sub_cancel' (Nat.le_of_not_lt hk)] at way
      refine ⟨i + 1, node, path, ?_, hnode, way⟩
      rw [hpath, Nat.add_assoc, Nat.add_comm 1]

theorem leads_layOut (t : Term) (records : Array Record)
    (included : g.Includes (layOut t records).2) (k : Nat) (o : Occurrence)
    (nth : t.applications[k]? = some o) :
    g.Leads (layOut t records).1 o.path (.func (records.size + k)) := by
  induction t generalizing records k o with
  | var id => cases nth
  | const symbol => cases nth
  | app symbol args ih =>
    have each : ∀ t ∈ args, ∀ records : Array Record,
        (layOut t records).2.size = records.size + t.applications.length := fun t _ => size_layOut t
    have hsize := size_layOutArgs each 0 records
    rw [layOut] at included ⊢
    rw [Term.applications] at nth
    by_cases hk : k < (Term.applicationsArgs 0 args).length
    · rw [List.getElem?_append_left hk] at nth
      have included' : g.Includes (layOutArgs args records).2 :=
        included.of_append Array.push_eq_append
      obtain ⟨i, node, path, hpath, hnode, way⟩ := leads_layOutArgs ih included' nth
      rw [hpath, Nat.zero_add]
      exact .down (included _ _ Array.getElem?_push_size) hnode way
    · have hle : (Term.applicationsArgs 0 args).length ≤ k := Nat.le_of_not_lt hk
      rw [List.getElem?_append_right hle] at nth
      obtain ⟨hlast, rfl⟩ := List.getElem?_eq_some_iff.1 nth
      have heq : k = (Term.applicationsArgs 0 args).length := by
        rw [List.length_singleton] at hlast
        omega
      subst heq
      simp only [Nat.sub_self, List.getElem_cons_zero, ← hsize]
      exact .here _

/-- **Laying out a term** gives one record for each application, in post-order. -/
theorem laysOut_ofTerm (t : Term) : (ofTerm t).LaysOut t := by
  refine ⟨?_, fun k o nth => ?_, isOrdered_ofTerm t⟩
  · have hsize := size_layOut t #[]
    rw [Array.size_empty, Nat.zero_add] at hsize
    exact hsize
  · have included : (ofTerm t).Includes (layOut t #[]).2 := fun _ _ found => found
    have way := leads_layOut t #[] included k o nth
    rw [Array.size_empty, Nat.zero_add] at way
    refine ⟨way, ?_⟩
    obtain ⟨u, hu, hat⟩ := (stores_ofTerm t).leads way
    obtain ⟨happ, -⟩ := Term.mem_applications.1 (List.mem_of_getElem? nth)
    rw [happ.unique hat]
    exact hu

/-! ### Walking through two tables -/

/-- Compares two stored terms node by node, as far as they have the same shape. -/
def comparison : PairReduction Id Bool where
  free i j := pure (i == j)
  const c d := pure (c == d)
  func f g args := pure (f == g && args.all id)
  other _ _ := pure false

theorem all_zip_eq_true_iff {f : Node × Node → Bool} {xs ys : List Node} {ts us : List Term}
    (stored : List.Forall₂ a.Stores xs ts) (stored' : List.Forall₂ b.Stores ys us)
    (length : xs.length = ys.length)
    (each : ∀ x ∈ xs, ∀ y t u, a.Stores x t → b.Stores y u → (f (x, y) = true ↔ t = u)) :
    ((xs.zip ys).map f).all id = true ↔ ts = us := by
  induction stored generalizing ys us with
  | nil =>
    obtain rfl := List.length_eq_zero_iff.1 length.symm
    cases stored'
    simp
  | @cons x t xs ts first _ ih =>
    cases stored' with
    | nil => simp at length
    | @cons y u ys us first' rest' =>
      have each' := fun x' hx' => each x' (List.mem_cons_of_mem x hx')
      have hrest := ih rest' (Nat.succ.inj length) each'
      have hfirst := each x List.mem_cons_self y t u first first'
      simp only [List.zip_cons_cons, List.map_cons, List.all_cons, id_eq, Bool.and_eq_true, hfirst,
        hrest, List.cons.injEq]

theorem run_reducePairFrom_func {i j depth : Nat} {r r' : Record} (found : a.records[i]? = some r)
    (found' : b.records[j]? = some r') :
    (reducePairFrom comparison a b (depth + 1) (.func i) (.func j)).run =
      (decide (r.arity = r'.arity) && (r.symbol == r'.symbol &&
        ((r.args.zip r'.args).map fun p => (reducePairFrom comparison a b depth p.1 p.2).run).all
          id)) := by
  simp only [reducePairFrom, found, found']
  by_cases harity : r.arity = r'.arity
  · rw [if_pos harity, decide_eq_true harity, Bool.true_and, ← List.idRun_mapM]
    rfl
  · rw [if_neg harity, decide_eq_false harity, Bool.false_and]
    rfl

/-- Two records are the same application if their arguments are compared rightly. -/
theorem run_reducePairFrom_func_iff {i j depth : Nat} {r r' : Record} {term term' : Node → Term}
    (found : a.records[i]? = some r) (found' : b.records[j]? = some r')
    (args : ∀ arg ∈ r.args, a.Stores arg (term arg))
    (args' : ∀ arg ∈ r'.args, b.Stores arg (term' arg))
    (each : ∀ x ∈ r.args, ∀ y u, b.Stores y u →
      ((reducePairFrom comparison a b depth x y).run = true ↔ term x = u)) :
    (reducePairFrom comparison a b (depth + 1) (.func i) (.func j)).run = true ↔
      Term.app r.symbol (r.args.map term) = .app r'.symbol (r'.args.map term') := by
  rw [run_reducePairFrom_func found found', Bool.and_eq_true, Bool.and_eq_true,
    decide_eq_true_eq, beq_iff_eq, Term.app.injEq]
  have compared (length : r.args.length = r'.args.length) :
      ((r.args.zip r'.args).map fun p => (reducePairFrom comparison a b depth p.1 p.2).run).all
        id = true ↔ r.args.map term = r'.args.map term' := by
    apply all_zip_eq_true_iff (a := a) (b := b) ?_ ?_ length
    · intro x hx y t u hx' hy
      obtain rfl : t = term x := hx'.termAt_eq.symm.trans (args x hx).termAt_eq
      exact each x hx y u hy
    · exact List.forall₂_map_right_iff.2 (List.forall₂_same.2 args)
    · exact List.forall₂_map_right_iff.2 (List.forall₂_same.2 args')
  constructor
  · rintro ⟨length, hsymbol, hall⟩
    exact ⟨hsymbol, (compared length).1 hall⟩
  · rintro ⟨hsymbol, hargs⟩
    have length : r.args.length = r'.args.length := by simpa using congrArg List.length hargs
    exact ⟨length, hsymbol, (compared length).2 hargs⟩

/-- Walking to the depth of the first term compares the terms. -/
theorem run_reducePairFrom_comparison (stored : a.Stores x t) (stored' : b.Stores y u)
    {depth : Nat} (deep : t.levels ≤ depth) :
    (reducePairFrom comparison a b depth x y).run = true ↔ t = u := by
  induction stored generalizing y u depth with
  | free i =>
    cases stored' with
    | free j => simp [reducePairFrom, comparison]
    | const d => simp [reducePairFrom, comparison]
    | func => simp [reducePairFrom, comparison]
  | const c =>
    cases stored' with
    | free j => simp [reducePairFrom, comparison]
    | const d => simp [reducePairFrom, comparison]
    | func => simp [reducePairFrom, comparison]
  | @func i r term found args ih =>
    rw [Term.levels, Nat.add_comm] at deep
    obtain ⟨depth, rfl⟩ : ∃ d, depth = d + 1 := ⟨depth - 1, by omega⟩
    cases stored' with
    | free j => simp [reducePairFrom, comparison]
    | const d => simp [reducePairFrom, comparison]
    | @func j r' term' found' args' =>
      apply run_reducePairFrom_func_iff found found' args args'
      intro x hx y u hy
      apply ih x hx hy
      have hle := Term.levels_le_levelsArgs (List.mem_map_of_mem (f := term) hx)
      omega

/-- **Walking through two tables** tells whether they store the same term. -/
theorem reducePair_comparison (stored : a.Stores a.root t) (stored' : b.Stores b.root u) :
    (reducePair comparison a b).run = true ↔ t = u :=
  run_reducePairFrom_comparison stored stored' stored.levels_le_size

theorem foldPairOr_comparison (stored : a.Stores a.root t) (stored' : b.Stores b.root u) :
    (foldPairOr comparison false a b).run.run = .ok (t == u) := by
  have hterm : a.term = t := stored.termAt_eq
  have hwalk : foldPairOr comparison false a b = liftM (reducePair comparison a b) :=
    foldPairWithin_eq (isMeeting_reducePairFrom comparison a b) stored stored'
      (Nat.le_of_eq (congrArg Term.visits hterm.symm))
  have hsame : (reducePair comparison a b).run = (t == u) := by
    rw [Bool.eq_iff_iff, reducePair_comparison stored stored', beq_iff_eq]
  rw [hwalk, ← hsame]
  rfl

/-! ### Graphs laid out anew -/

/-- A leaf at the root has no records. -/
def IsBare (g : TermGraph) : Prop := g.root.kind ≠ .func → g.records = #[]

theorem compacted_of_leaf (leaf : g.root.kind ≠ .func) : g.compacted = g := by
  rw [compacted]
  split
  next index hroot => exact absurd hroot (Node.kind_ne_func_iff.1 leaf index)
  next => rfl

/-- What is laid out anew depends on the term alone. -/
theorem IsBare.compacted_eq (bare : g.IsBare) : g.compacted = ofTerm g.term := by
  by_cases root : g.root.kind = .func
  · obtain ⟨index, hroot⟩ := Node.kind_eq_func_iff.1 root
    rw [compacted, hroot]
  · have hrecords := bare root
    rw [compacted_of_leaf root]
    obtain ⟨node, records⟩ := g
    cases node with
    | func index => exact absurd rfl root
    | free id => simp_all [term, termAt, ofTerm, layOut]
    | const symbol => simp_all [term, termAt, ofTerm, layOut]

theorem eq_iff_root_records : a = b ↔ a.root = b.root ∧ a.records = b.records := by
  cases a
  cases b
  rw [mk.injEq]

theorem ofTerm_injective : Function.Injective ofTerm := by
  intro t u same
  rw [← term_ofTerm t, same, term_ofTerm]

end TermGraph

namespace Expression

variable {a b : Expression}

theorem identical_iff : a.identical b = true ↔ a.term = b.term := beq_iff_eq

theorem compacted_of_leaf (leaf : a.graph.root.kind ≠ .func) : a.compacted = a := by
  rw [compacted]
  split
  next index hroot => exact absurd hroot (Node.kind_ne_func_iff.1 leaf index)
  next => rfl

theorem compacted_of_func (root : a.graph.root.kind = .func) :
    a.compacted = a.withGraph (.ofTerm a.term) := by
  obtain ⟨index, hroot⟩ := Node.kind_eq_func_iff.1 root
  rw [compacted, hroot]

theorem term_compacted (a : Expression) : a.compacted.term = a.term :=
  (congrArg TermGraph.term a.graph_compacted).trans (TermGraph.term_compacted a.graph)

theorem Denotes.compacted (h : a.Denotes t) : a.compacted.Denotes t := by
  by_cases root : a.graph.root.kind = .func
  · rw [compacted_of_func root, h.term_eq]
    exact TermGraph.stores_ofTerm t
  · rw [compacted_of_leaf root]
    exact h

theorem exists_compact_iff (acyclic : a.graph.IsAcyclic) :
    (∃ c, a.compact = .ok c) ↔ (a.graph.root.kind = .func →
      DenseSet.FitRow a.term.vars ∧ Vocabulary.plain.Covers a.term) := by
  constructor
  · rintro ⟨c, ok⟩ root
    have plain := (compact_eq_ok_iff.1 ok).1 root
    exact ⟨plain.fit, plain.covered⟩
  · intro h
    refine ⟨a.compacted, compact_eq_ok_iff.2 ⟨fun root => ?_, rfl⟩⟩
    obtain ⟨fit, covered⟩ := h root
    exact ⟨⟨denotes_term acyclic, fit⟩, covered⟩

theorem compact_compact {c : Expression} (ok : a.compact = .ok c) : c.compact = .ok c := by
  obtain ⟨can, rfl⟩ := compact_eq_ok_iff.1 ok
  rw [compact_eq_ok_iff]
  by_cases root : a.graph.root.kind = .func
  · have plain := can root
    have hterm := a.term_compacted
    have hdenotes : a.compacted.Denotes a.term := by
      rw [compacted_of_func root]
      exact TermGraph.stores_ofTerm a.term
    refine ⟨fun _ => ⟨⟨hterm ▸ hdenotes, hterm ▸ plain.fit⟩, hterm ▸ plain.covered⟩, ?_⟩
    by_cases hroot : a.compacted.graph.root.kind = .func
    · rw [compacted_of_func hroot, hterm, compacted_of_func root]
      rfl
    · exact (compacted_of_leaf hroot).symm
  · rw [compacted_of_leaf root, compacted_of_leaf root]
    exact ⟨fun h => absurd h root, rfl⟩

/-- **Layouts are canonical.** Two expressions without circles are identical if and only if they
denote the same term, which a walk through both tables finds out. An application can be laid out
anew if its variables fit into one row, as no record is without arguments, and a leaf always. This
gives an identical expression; once is enough. If a leaf at the root has no records, the new table
has one record for each application of the term, in post-order, so arguments stand before the record
that has them; and expressions are identical if and only if they have the same layout, and hence the
same archive. A leaf that has records all the same is left as it is. -/
theorem layouts_are_canonical (acyclic : a.graph.IsAcyclic) (acyclic' : b.graph.IsAcyclic) :
    (a.identical b = true ↔ ∃ t, a.Denotes t ∧ b.Denotes t) ∧
      (TermGraph.foldPairOr TermGraph.comparison false a.graph b.graph).run.run =
        .ok (a.identical b) ∧
      ((∃ c, a.compact = .ok c) ↔ (a.graph.root.kind = .func →
        DenseSet.FitRow a.term.vars ∧ Vocabulary.plain.Covers a.term)) ∧
      (∀ c, a.compact = .ok c →
        (c.identical a = true ∧ c.Denotes a.term ∧ c.compact = .ok c) ∧
        (a.graph.IsBare → c.graph.LaysOut a.term) ∧ (¬a.graph.IsBare → c = a)) ∧
      (∀ o, o ∈ a.term.applications ↔
        a.term.HasAt o.path o.term ∧ ∃ symbol args, o.term = .app symbol args) ∧
      (a.term.applications.map Occurrence.path).Pairwise Occurrence.Precedes ∧
      ∀ c d, a.compact = .ok c → b.compact = .ok d → a.graph.IsBare → b.graph.IsBare →
        (a.identical b = true ↔ c.graph.root = d.graph.root ∧ c.graph.records = d.graph.records) ∧
        (a.identical b = true → c.graph.save = d.graph.save) := by
  have denotes : a.Denotes a.term := denotes_term acyclic
  have denotes' : b.Denotes b.term := denotes_term acyclic'
  refine ⟨?_, TermGraph.foldPairOr_comparison denotes denotes', exists_compact_iff acyclic, ?_, ?_,
    ?_, ?_⟩
  · rw [identical_iff]
    constructor
    · intro same
      exact ⟨a.term, denotes, same ▸ denotes'⟩
    · rintro ⟨t, ht, ht'⟩
      rw [ht.term_eq, ht'.term_eq]
  · intro c ok
    obtain ⟨-, rfl⟩ := compact_eq_ok_iff.1 ok
    refine ⟨⟨?_, (denotes_term acyclic).compacted, compact_compact ok⟩, ?_, ?_⟩
    · rw [identical_iff, term_compacted]
    · intro bare
      rw [graph_compacted, bare.compacted_eq]
      exact TermGraph.laysOut_ofTerm a.term
    · intro abandoned
      apply compacted_of_leaf
      intro root
      exact abandoned fun leaf => absurd root leaf
  · intro o
    exact Term.mem_applications
  · exact a.term.pairwise_applications
  · intro c d ok ok' bare bare'
    obtain ⟨-, rfl⟩ := compact_eq_ok_iff.1 ok
    obtain ⟨-, rfl⟩ := compact_eq_ok_iff.1 ok'
    have same_iff : a.identical b = true ↔ a.compacted.graph = b.compacted.graph := by
      rw [identical_iff, graph_compacted, graph_compacted, bare.compacted_eq, bare'.compacted_eq]
      exact TermGraph.ofTerm_injective.eq_iff.symm
    refine ⟨?_, fun same => congrArg TermGraph.save (same_iff.1 same)⟩
    rw [same_iff, TermGraph.eq_iff_root_records]

/-- The term `f(g(x), g(x))` with a record for each argument, the second before the first, and one
that is out of reach. -/
def crossed : Expression :=
  .ofGraph .paired
    { root := .func 1
      records := #[⟨1, [.free 0]⟩, ⟨0, [.func 3, .func 0]⟩, ⟨1, [.free 7]⟩, ⟨1, [.free 0]⟩] }

theorem denotes_crossed : crossed.Denotes (.app 0 [.app 1 [.var 0], .app 1 [.var 0]]) := by
  have hfirst : crossed.graph.Stores (.func 3) (.app 1 [.var 0]) :=
    TermGraph.stores_func_iff.2 ⟨_, _, rfl, rfl, .cons (.free 0) .nil⟩
  have hsecond : crossed.graph.Stores (.func 0) (.app 1 [.var 0]) :=
    TermGraph.stores_func_iff.2 ⟨_, _, rfl, rfl, .cons (.free 0) .nil⟩
  exact TermGraph.stores_func_iff.2 ⟨_, _, rfl, rfl, .cons hfirst (.cons hsecond .nil)⟩

theorem layouts_are_canonical_crossed :
    doubled.identical crossed = true ∧ ∃ c d, doubled.compact = .ok c ∧ crossed.compact = .ok d ∧
      c.graph.LaysOut doubled.term ∧ c.graph.size = 3 ∧ c.graph.records = d.graph.records ∧
      c.graph.save = d.graph.save := by
  have acyclic : crossed.graph.IsAcyclic := TermGraph.Stores.isAcyclic denotes_crossed (by decide)
  have bare : doubled.graph.IsBare := fun leaf => absurd rfl leaf
  have bare' : crossed.graph.IsBare := fun leaf => absurd rfl leaf
  obtain ⟨hterms, -, -, hcompact, -, -, hsame⟩ := layouts_are_canonical isAcyclic_doubled acyclic
  have identical : doubled.identical crossed = true :=
    hterms.2 ⟨_, denotes_term isAcyclic_doubled, denotes_crossed⟩
  obtain ⟨c, ok⟩ : ∃ c, doubled.compact = .ok c := ⟨_, rfl⟩
  obtain ⟨d, ok'⟩ : ∃ d, crossed.compact = .ok d := ⟨_, rfl⟩
  obtain ⟨-, hlays, -⟩ := hcompact c ok
  obtain ⟨hlayouts, harchives⟩ := hsame c d ok ok' bare bare'
  have lays := hlays bare
  exact ⟨identical, c, d, ok, ok', lays, lays.size, (hlayouts.1 identical).2, harchives identical⟩

/-- A variable in a table to which a record was added, but that was given no other root. -/
def abandoned : Expression :=
  .ofGraph .paired { root := .free 0, records := #[⟨1, [.free 0]⟩] }

/-- **A record that stays.** Laying out anew keeps a record that is out of reach, and tells two
identical expressions apart. -/
theorem compact_abandoned :
    TermGraph.empty.add 1 [.free 0] = .ok abandoned.graph ∧ abandoned.graph.IsAcyclic ∧
      abandoned.identical (free .paired 0) = true ∧ abandoned.term.applications = [] ∧
      abandoned.compact = .ok abandoned ∧ abandoned.graph.size = 1 ∧
      (free .paired 0).compact = .ok (free .paired 0) ∧
      abandoned.graph.records ≠ (free .paired 0).graph.records ∧
      abandoned.graph.save ≠ (free .paired 0).graph.save := by
  refine ⟨rfl, TermGraph.Stores.isAcyclic (.free 0) (by decide), ?_, rfl, rfl, rfl, rfl, ?_, ?_⟩
  · decide
  · decide
  · decide +kernel

end Expression

end Equational
