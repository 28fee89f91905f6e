import Equational.Expression
import Equational.Proofs.Draws
import Equational.Proofs.Substitution

/-!
# What a table of records stores

A graph is *of* a vocabulary if its constants and its records, within reach of the root or
not, are taken from the vocabulary, every argument names a record of the table, and a leaf at
the root leaves no records behind. Every operation on graphs keeps this (`IsOf`), so what
holds of the symbols of the parts holds of the symbols of the whole.

A table is *in order* if arguments stand before the record that has them. A term that is laid
out gives a table in order, and in such a table a node stores the term that its record and the
terms of its arguments make (`IsOrdered.termAt_func`).
-/

namespace Equational

/-! ### Vocabularies -/

/-- Constants, and symbols with a number of arguments, that terms may be made of. -/
structure Vocabulary where
  const : Nat → Prop
  app : Nat → Nat → Prop

namespace Vocabulary

variable {v : Vocabulary} {size size' : Nat} {node : Node} {r : Record}

inductive Covers (v : Vocabulary) : Term → Prop
  | var (id : Nat) : Covers v (.var id)
  | const {symbol : Nat} (known : v.const symbol) : Covers v (.const symbol)
  | app {symbol : Nat} {args : List Term} (known : v.app symbol args.length)
      (covered : ∀ t ∈ args, Covers v t) : Covers v (.app symbol args)

/-- Any constants, and applications to at least one argument. -/
def plain : Vocabulary := ⟨fun _ => True, fun _ arity => 0 < arity⟩

theorem any_covers (t : Term) : Covers ⟨fun _ => True, fun _ _ => True⟩ t := by
  induction t with
  | var id => exact .var id
  | const symbol => exact .const trivial
  | app symbol args ih => exact .app trivial ih

/-- The node may be an argument in a table with `size` records before it. -/
def Allows (v : Vocabulary) (size : Nat) : Node → Prop
  | .free _ => True
  | .const symbol => v.const symbol
  | .func index => index < size

def AllowsRecord (v : Vocabulary) (size : Nat) (r : Record) : Prop :=
  v.app r.symbol r.arity ∧ ∀ node ∈ r.args, v.Allows size node

theorem Allows.mono (h : v.Allows size node) (le : size ≤ size') : v.Allows size' node := by
  cases node with
  | free id => trivial
  | const symbol => exact h
  | func index => exact Nat.lt_of_lt_of_le h le

theorem AllowsRecord.mono (h : v.AllowsRecord size r) (le : size ≤ size') :
    v.AllowsRecord size' r :=
  ⟨h.1, fun node hnode => (h.2 node hnode).mono le⟩

theorem Allows.offset (h : v.Allows size node) (offset : Nat) :
    v.Allows (offset + size) (node.offset offset) := by
  cases node with
  | free id => trivial
  | const symbol => exact h
  | func index =>
    have hlt : index < size := h
    show index + offset < offset + size
    omega

theorem AllowsRecord.offset (h : v.AllowsRecord size r) (offset : Nat) :
    v.AllowsRecord (offset + size) (r.offset offset) := by
  constructor
  · show v.app r.symbol (r.args.map _).length
    rw [List.length_map]
    exact h.1
  · intro node hnode
    obtain ⟨node₀, hnode₀, rfl⟩ := List.mem_map.1 hnode
    exact (h.2 node₀ hnode₀).offset offset

end Vocabulary

namespace TermGraph

variable {v : Vocabulary} {g g' other : TermGraph} {node : Node}

/-- Every record is of the vocabulary and names records of the table. -/
def RecordsIn (g : TermGraph) (v : Vocabulary) : Prop := ∀ r ∈ g.records, v.AllowsRecord g.size r

structure IsOf (g : TermGraph) (v : Vocabulary) : Prop where
  records : g.RecordsIn v
  root : v.Allows g.size g.root
  bare : g.root.kind ≠ .func → g.records = #[]

theorem isOf_leaf (root : Node) (h : v.Allows 0 root) : IsOf { root } v :=
  ⟨fun r hr => by simp at hr, h, fun _ => rfl⟩

theorem RecordsIn.allowsRecord (h : g.RecordsIn v) {index : Nat} {r : Record}
    (found : g.records[index]? = some r) : v.AllowsRecord g.size r :=
  h r (Array.mem_of_getElem? found)

@[simp] theorem unfold_free (g : TermGraph) (depth id : Nat) :
    g.unfold depth (.free id) = .var id := by
  cases depth <;> rfl

@[simp] theorem unfold_const (g : TermGraph) (depth symbol : Nat) :
    g.unfold depth (.const symbol) = .const symbol := by
  cases depth <;> rfl

theorem RecordsIn.covers_unfold (h : g.RecordsIn v) (depth : Nat) (allowed : v.Allows g.size node) :
    v.Covers (g.unfold depth node) := by
  induction depth generalizing node with
  | zero =>
    cases node with
    | free id => exact .var id
    | const symbol => exact .const allowed
    | func index => exact .var 0
  | succ depth ih =>
    cases node with
    | free id => exact .var id
    | const symbol => exact .const allowed
    | func index =>
      rw [unfold]
      split
      next record found =>
        obtain ⟨hknown, hargs⟩ := h.allowsRecord found
        refine .app ?_ ?_
        · rw [List.length_map]
          exact hknown
        · intro t ht
          obtain ⟨arg, harg, rfl⟩ := List.mem_map.1 ht
          exact ih (hargs arg harg)
      next => exact .var 0

theorem IsOf.covers_term (h : g.IsOf v) : v.Covers g.term := h.records.covers_unfold g.size h.root

/-! ### Operations -/

theorem size_le_absorb (g other : TermGraph) : g.size ≤ (g.absorb other).2.size := by
  rw [absorb]
  split
  · show g.records.size ≤ (g.records ++ _).size
    rw [Array.size_append]
    omega
  · exact Nat.le_refl _

@[simp] theorem root_absorb (g other : TermGraph) : (g.absorb other).2.root = g.root := by
  rw [absorb]
  split <;> rfl

theorem RecordsIn.absorb (h : g.RecordsIn v) (hother : other.IsOf v) :
    (g.absorb other).2.RecordsIn v ∧ v.Allows (g.absorb other).2.size (g.absorb other).1 := by
  have hroot := hother.root
  rw [TermGraph.absorb]
  split
  next index heq =>
    have hsize : (g.records ++ other.records.map (Record.offset g.size)).size =
        g.size + other.size := by
      rw [Array.size_append, Array.size_map]
      rfl
    rw [heq] at hroot
    constructor
    · intro r hr
      show v.AllowsRecord (Array.size _) r
      rw [hsize]
      rcases Array.mem_append.1 hr with hr | hr
      · exact (h r hr).mono (Nat.le_add_right _ _)
      · obtain ⟨r₀, hr₀, rfl⟩ := Array.mem_map.1 hr
        exact (hother.records r₀ hr₀).offset g.size
    · show index + g.size < Array.size _
      have hlt : index < other.size := hroot
      rw [hsize]
      omega
  next node hfunc =>
    refine ⟨h, ?_⟩
    cases hnode : other.root with
    | free id => trivial
    | const symbol => rwa [hnode] at hroot
    | func index => exact absurd hnode (hfunc index)

theorem RecordsIn.setRecord (h : g.RecordsIn v) {index : Nat} {r : Record}
    (allowed : v.AllowsRecord g.size r) :
    RecordsIn { g with records := g.records.setIfInBounds index r } v := by
  intro r' hr'
  show v.AllowsRecord (Array.size _) r'
  rw [Array.size_setIfInBounds]
  rcases Array.mem_or_eq_of_mem_setIfInBounds hr' with hr' | rfl
  · exact h r' hr'
  · exact allowed

/-- Putting a node into a slot of a record keeps the symbol and the number of arguments. -/
theorem RecordsIn.setArg (h : g.RecordsIn v) (allowed : v.Allows g.size node) {index slot : Nat}
    (ok : g.setArg index slot node = .ok g') :
    g'.RecordsIn v ∧ g'.root = g.root ∧ g'.size = g.size := by
  rw [TermGraph.setArg] at ok
  split at ok
  next => cases ok
  next record found =>
    obtain ⟨hknown, hargs⟩ := h.allowsRecord found
    split at ok
    next => cases ok
    next =>
      split at ok
      next => cases ok
      next =>
        obtain rfl := Except.ok.inj ok
        refine ⟨h.setRecord ⟨?_, ?_⟩, rfl, Array.size_setIfInBounds⟩
        · show v.app record.symbol (record.args.set slot node).length
          rw [List.length_set]
          exact hknown
        · intro arg harg
          rcases List.mem_or_eq_of_mem_set harg with harg | rfl
          · exact hargs arg harg
          · exact allowed

theorem IsOf.replaceArg (h : g.IsOf v) (hother : other.IsOf v) (func : g.root.kind = .func)
    {index slot : Nat} (ok : g.replaceArg index slot other = .ok g') : g'.IsOf v := by
  obtain ⟨hrecords, hnode⟩ := h.records.absorb hother
  obtain ⟨hrecords', hroot, hsize⟩ := hrecords.setArg hnode ok
  rw [root_absorb] at hroot
  refine ⟨hrecords', ?_, fun hleaf => absurd func (hroot ▸ hleaf)⟩
  rw [hroot, hsize]
  exact h.root.mono (size_le_absorb g other)

theorem allows_relabelNode {label : Nat → Option Node}
    (leaves : ∀ id leaf, label id = some leaf → v.Allows 0 leaf) {size : Nat}
    (h : v.Allows size node) : v.Allows size (relabelNode label node) := by
  cases node with
  | free id =>
    rw [relabelNode]
    cases hlabel : label id with
    | none => trivial
    | some leaf => exact (leaves id leaf hlabel).mono (Nat.zero_le _)
  | const symbol => exact h
  | func index => exact h

theorem IsOf.relabel (h : g.IsOf v) {label : Nat → Option Node}
    (leaves : ∀ id leaf, label id = some leaf → v.Allows 0 leaf) : (g.relabel label).IsOf v := by
  rw [TermGraph.relabel]
  split
  next id hroot =>
    split
    next leaf hlabel => exact isOf_leaf leaf (leaves id leaf hlabel)
    next => exact h
  next =>
    refine ⟨?_, ?_, ?_⟩
    · intro r hr
      obtain ⟨r₀, hr₀, rfl⟩ := Array.mem_map.1 hr
      obtain ⟨hknown, hargs⟩ := h.records r₀ hr₀
      show v.AllowsRecord (Array.size _) _
      rw [Array.size_map]
      constructor
      · show v.app r₀.symbol (r₀.args.map _).length
        rw [List.length_map]
        exact hknown
      · intro arg harg
        obtain ⟨arg₀, harg₀, rfl⟩ := List.mem_map.1 harg
        exact allows_relabelNode leaves (hargs arg₀ harg₀)
    · show v.Allows (Array.size _) g.root
      rw [Array.size_map]
      exact h.root
    · intro hleaf
      show Array.map _ g.records = #[]
      rw [h.bare hleaf, Array.map_empty]

theorem IsOf.viewAt (h : g.IsOf v) (known : ∀ symbol, node = .const symbol → v.const symbol)
    (ok : g.viewAt node = .ok g') : g'.IsOf v := by
  cases node with
  | free id =>
    obtain rfl := Except.ok.inj ok
    exact isOf_leaf _ trivial
  | const symbol =>
    obtain rfl := Except.ok.inj ok
    exact isOf_leaf _ (known symbol rfl)
  | func index =>
    rw [TermGraph.viewAt, setRoot] at ok
    split at ok
    next hlt =>
      obtain rfl := Except.ok.inj ok
      exact ⟨h.records, hlt, fun hleaf => absurd rfl hleaf⟩
    next => cases ok

/-! ### Arguments for one record -/

/-- What comes of preparing `count` arguments for a record: nodes that the grown table allows. -/
structure Prepared (v : Vocabulary) (g : TermGraph) (count : Nat) (result : List Node × TermGraph) :
    Prop where
  records : result.2.RecordsIn v
  grows : g.size ≤ result.2.size
  root : result.2.root = g.root
  length : result.1.length = count
  nodes : ∀ node ∈ result.1, v.Allows result.2.size node

theorem RecordsIn.prepared_nil (h : g.RecordsIn v) : Prepared v g 0 ([], g) :=
  ⟨h, Nat.le_refl _, rfl, rfl, fun node hnode => by cases hnode⟩

theorem Prepared.cons {nodes : List Node} {count : Nat} (h : Prepared v g count (nodes, g'))
    (allowed : v.Allows g.size node) : Prepared v g (count + 1) (node :: nodes, g') := by
  refine ⟨h.records, h.grows, h.root, ?_, ?_⟩
  · rw [List.length_cons, h.length]
  · intro node' hnode'
    rcases List.mem_cons.1 hnode' with rfl | hnode'
    · exact allowed.mono h.grows
    · exact h.nodes node' hnode'

/-- A node of a copied graph comes first, and the other arguments are prepared after it. -/
theorem Prepared.cons_absorb {nodes : List Node} {count : Nat}
    (h : Prepared v (g.absorb other).2 count (nodes, g')) (hg : g.RecordsIn v)
    (hother : other.IsOf v) : Prepared v g (count + 1) ((g.absorb other).1 :: nodes, g') := by
  obtain ⟨hrecords, hgrows, hroot, hlength, hnodes⟩ := h.cons (hg.absorb hother).2
  exact ⟨hrecords, Nat.le_trans (size_le_absorb g other) hgrows,
    hroot.trans (root_absorb g other), hlength, hnodes⟩

theorem RecordsIn.fillArgs {image : Nat → Option TermGraph}
    (images : ∀ id other, image id = some other → other.IsOf v) {args : List Node}
    (h : g.RecordsIn v) (allowed : ∀ arg ∈ args, v.Allows g.size arg) :
    Prepared v g args.length (fillArgs image args g) := by
  induction args generalizing g with
  | nil => exact h.prepared_nil
  | cons arg args ih =>
    have harg := allowed arg List.mem_cons_self
    have hrest : ∀ a ∈ args, v.Allows g.size a := fun a ha => allowed a (List.mem_cons_of_mem _ ha)
    cases arg with
    | const symbol => exact (ih h hrest).cons harg
    | func index => exact (ih h hrest).cons harg
    | free id =>
      rw [TermGraph.fillArgs]
      split
      next other himage =>
        have hother := images id other himage
        refine (ih (h.absorb hother).1 ?_).cons_absorb h hother
        exact fun a ha => (hrest a ha).mono (size_le_absorb g other)
      next => exact (ih h hrest).cons harg

theorem RecordsIn.fillRecords {image : Nat → Option TermGraph}
    (images : ∀ id other, image id = some other → other.IsOf v) (count index : Nat)
    (h : g.RecordsIn v) :
    (fillRecords image count index g).RecordsIn v ∧
      g.size ≤ (fillRecords image count index g).size ∧
      (fillRecords image count index g).root = g.root := by
  induction count generalizing index g with
  | zero => exact ⟨h, Nat.le_refl _, rfl⟩
  | succ count ih =>
    rw [TermGraph.fillRecords]
    split
    next => exact ⟨h, Nat.le_refl _, rfl⟩
    next record found =>
      obtain ⟨hknown, hargs⟩ := h.allowsRecord found
      have filled := h.fillArgs images hargs
      have hrecord : v.AllowsRecord (TermGraph.fillArgs image record.args g).2.size
          ⟨record.symbol, (TermGraph.fillArgs image record.args g).1⟩ := by
        refine ⟨?_, filled.nodes⟩
        rw [Record.arity, filled.length]
        exact hknown
      obtain ⟨hrecords, hgrows, hroot⟩ := ih (index + 1) (filled.records.setRecord hrecord)
      refine ⟨hrecords, Nat.le_trans ?_ hgrows, hroot.trans filled.root⟩
      show g.size ≤ Array.size _
      rw [Array.size_setIfInBounds]
      exact filled.grows

/-! ### Tables in order -/

/-- Arguments stand before the record that has them. -/
def IsOrdered (g : TermGraph) : Prop :=
  ∀ (index : Nat) (r : Record), g.records[index]? = some r → ∀ j, .func j ∈ r.args → j < index

theorem isOrdered_leaf (root : Node) : IsOrdered { root } := fun index r found => by simp at found

/-- Records of a vocabulary in order are those that each allow only what comes before them. -/
theorem recordsIn_and_isOrdered_iff :
    g.RecordsIn v ∧ g.IsOrdered ↔
      ∀ (index : Nat) (r : Record), g.records[index]? = some r → v.AllowsRecord index r := by
  constructor
  · rintro ⟨hrecords, hordered⟩ index r found
    obtain ⟨hknown, hargs⟩ := hrecords.allowsRecord found
    refine ⟨hknown, fun arg harg => ?_⟩
    cases arg with
    | free id => trivial
    | const symbol => exact hargs _ harg
    | func j => exact hordered index r found j harg
  · intro h
    constructor
    · intro r hr
      obtain ⟨index, found⟩ := Array.mem_iff_getElem?.1 hr
      have hlt : index < g.size := (Array.getElem?_eq_some_iff.1 found).1
      exact (h index r found).mono (Nat.le_of_lt hlt)
    · intro index r found j hj
      exact (h index r found).2 _ hj

/-- In a table in order, following a record to any depth beyond its number gives the same term. -/
theorem IsOrdered.unfold_eq (ordered : g.IsOrdered) {depth depth' : Nat}
    (hdepth : ∀ index, node = .func index → index < depth ∧ index < depth') :
    g.unfold depth node = g.unfold depth' node := by
  induction depth generalizing depth' node with
  | zero =>
    cases node with
    | free id => simp
    | const symbol => simp
    | func index => exact absurd (hdepth index rfl).1 (Nat.not_lt_zero _)
  | succ depth ih =>
    cases node with
    | free id => simp
    | const symbol => simp
    | func index =>
      obtain ⟨hlt, hlt'⟩ := hdepth index rfl
      obtain ⟨depth', rfl⟩ : ∃ d, depth' = d + 1 := ⟨depth' - 1, by omega⟩
      -- One step down both depths shrink by one, and the number of the record by at least one.
      rw [unfold, unfold]
      split
      next record found =>
        have hargs : record.args.map (g.unfold depth) = record.args.map (g.unfold depth') := by
          refine List.map_congr_left fun arg harg => ih ?_
          rintro j rfl
          have hj := ordered index record found j harg
          omega
        rw [hargs]
      next => rfl

theorem IsOrdered.termAt_func (ordered : g.IsOrdered) {index : Nat} {r : Record}
    (found : g.records[index]? = some r) :
    g.termAt (.func index) = .app r.symbol (r.args.map g.termAt) := by
  have hlt : index < g.size := (Array.getElem?_eq_some_iff.1 found).1
  obtain ⟨depth, hdepth⟩ : ∃ d, g.size = d + 1 := ⟨g.size - 1, by omega⟩
  have hargs : r.args.map (g.unfold depth) = r.args.map g.termAt := by
    refine List.map_congr_left fun arg harg => ordered.unfold_eq ?_
    rintro j rfl
    have hj := ordered index r found j harg
    omega
  rw [termAt, hdepth, unfold, found, ← hargs]

/-- Following the arguments from a node ends, finds every record on the way, and gives the term. -/
inductive Stores (g : TermGraph) : Node → Term → Prop
  | free (id : Nat) : Stores g (.free id) (.var id)
  | const (symbol : Nat) : Stores g (.const symbol) (.const symbol)
  | func {index : Nat} {r : Record} {term : Node → Term} (found : g.records[index]? = some r)
      (args : ∀ node ∈ r.args, Stores g node (term node)) :
      Stores g (.func index) (.app r.symbol (r.args.map term))

theorem holds_of_allows (allowed : v.Allows g.size node) : g.holds node = true := by
  cases node with
  | free id => rfl
  | const symbol => rfl
  | func index => exact decide_eq_true allowed

theorem IsOrdered.stores_termAt (ordered : g.IsOrdered) (records : g.RecordsIn v)
    (held : g.holds node = true) : g.Stores node (g.termAt node) := by
  -- The arguments of a record have smaller numbers, so the induction is on a bound on the number.
  have below : ∀ bound node, (∀ index, node = .func index → index < bound) →
      g.holds node = true → g.Stores node (g.termAt node) := by
    intro bound
    induction bound using Nat.strongRecOn with
    | ind bound ih =>
      intro node hbound held
      cases node with
      | free id =>
        rw [termAt, unfold_free]
        exact .free id
      | const symbol =>
        rw [termAt, unfold_const]
        exact .const symbol
      | func index =>
        have hlt : index < g.records.size := of_decide_eq_true held
        have found := Array.getElem?_eq_getElem hlt
        rw [ordered.termAt_func found]
        refine .func found fun arg harg => ih index (hbound index rfl) arg ?_ ?_
        · rintro j rfl
          exact ordered index _ found j harg
        · exact holds_of_allows ((records.allowsRecord found).2 arg harg)
  refine below (node.id + 1) node ?_ held
  rintro index rfl
  exact Nat.lt_succ_self index

/-- The record `j` is an argument of the record `index`. -/
def Refers (g : TermGraph) (j index : Nat) : Prop :=
  ∃ r, g.records[index]? = some r ∧ .func j ∈ r.args

theorem IsOrdered.wellFounded (ordered : g.IsOrdered) : WellFounded g.Refers := by
  refine Subrelation.wf ?_ Nat.lt_wfRel.wf
  rintro j index ⟨r, found, hj⟩
  exact ordered index r found j hj

/-! ### Terms laid out -/

/-- What comes of laying out terms at the end of a table: it grows by records in order, whose nodes
store the terms in every table in order that goes on from there. -/
structure LaidOut (v : Vocabulary) (records : Array Record) (ts : List Term)
    (result : List Node × Array Record) : Prop where
  grows : ∃ more, result.2 = records ++ more
  ordered : ∀ (index : Nat) (r : Record), records.size ≤ index → result.2[index]? = some r →
    v.AllowsRecord index r
  nodes : ∀ node ∈ result.1, v.Allows result.2.size node
  length : result.1.length = ts.length
  terms : ∀ g : TermGraph, g.IsOrdered → (∃ more, g.records = result.2 ++ more) →
    result.1.map g.termAt = ts

theorem laidOut_nil (records : Array Record) : LaidOut v records [] ([], records) where
  grows := ⟨#[], by simp⟩
  ordered index r hle found := by
    have hlt : index < records.size := (Array.getElem?_eq_some_iff.1 found).1
    omega
  nodes node hnode := by cases hnode
  length := rfl
  terms _ _ _ := rfl

theorem LaidOut.cons {records middle final : Array Record} {t : Term} {ts : List Term}
    {nodes : List Node} (first : LaidOut v records [t] ([node], middle))
    (rest : LaidOut v middle ts (nodes, final)) :
    LaidOut v records (t :: ts) (node :: nodes, final) := by
  obtain ⟨more, hmiddle⟩ := first.grows
  obtain ⟨more', hfinal⟩ := rest.grows
  dsimp only at hmiddle hfinal
  refine ⟨⟨more ++ more', by rw [hfinal, hmiddle, Array.append_assoc]⟩, ?_, ?_, ?_, ?_⟩
  · intro index r hle found
    by_cases hlt : index < middle.size
    · refine first.ordered index r hle ?_
      have found' : final[index]? = some r := found
      rwa [hfinal, Array.getElem?_append_left hlt] at found'
    · exact rest.ordered index r (Nat.le_of_not_lt hlt) found
  · intro node' hnode'
    rcases List.mem_cons.1 hnode' with rfl | hnode'
    · refine (first.nodes node' List.mem_cons_self).mono ?_
      show middle.size ≤ final.size
      rw [hfinal, Array.size_append]
      omega
    · exact rest.nodes node' hnode'
  · rw [List.length_cons, List.length_cons, rest.length]
  · rintro g hordered ⟨tail, htail⟩
    have hhead : [node].map g.termAt = [t] := by
      refine first.terms g hordered ⟨more' ++ tail, ?_⟩
      rw [htail, hfinal, Array.append_assoc]
    have hrest : nodes.map g.termAt = ts := rest.terms g hordered ⟨tail, htail⟩
    rw [List.map_cons, hrest, (List.cons.inj hhead).1]

/-- The record of an application comes after those of its arguments. -/
theorem LaidOut.push {records middle : Array Record} {ts : List Term} {nodes : List Node}
    (args : LaidOut v records ts (nodes, middle)) {symbol : Nat} (known : v.app symbol ts.length) :
    LaidOut v records [.app symbol ts] ([.func middle.size], middle.push ⟨symbol, nodes⟩) := by
  obtain ⟨more, hmiddle⟩ := args.grows
  dsimp only at hmiddle
  have hlength : nodes.length = ts.length := args.length
  refine ⟨⟨more.push ⟨symbol, nodes⟩, ?_⟩, ?_, ?_, rfl, ?_⟩
  · show middle.push ⟨symbol, nodes⟩ = _
    rw [hmiddle, Array.append_push]
  · intro index r hle found
    have found' : (middle.push ⟨symbol, nodes⟩)[index]? = some r := found
    rw [Array.getElem?_push] at found'
    split at found'
    next hindex =>
      obtain rfl := Option.some.inj found'
      refine ⟨?_, fun node hnode => hindex ▸ args.nodes node hnode⟩
      show v.app symbol nodes.length
      rw [hlength]
      exact known
    next => exact args.ordered index r hle found'
  · intro node hnode
    obtain rfl := List.mem_singleton.1 hnode
    show middle.size < (middle.push _).size
    rw [Array.size_push]
    omega
  · rintro g hordered ⟨tail, htail⟩
    have hargs : nodes.map g.termAt = ts := by
      refine args.terms g hordered ⟨#[⟨symbol, nodes⟩] ++ tail, ?_⟩
      rw [htail, Array.push_eq_append, Array.append_assoc]
    have found : g.records[middle.size]? = some ⟨symbol, nodes⟩ := by
      have hlt : middle.size < (middle.push ⟨symbol, nodes⟩).size := by
        rw [Array.size_push]
        exact Nat.lt_succ_self _
      rw [htail, Array.getElem?_append_left hlt, Array.getElem?_push_size]
    rw [List.map_singleton, hordered.termAt_func found, hargs]

theorem laidOut_layOutArgs {ts : List Term} (records : Array Record)
    (each : ∀ t ∈ ts, ∀ records : Array Record,
      LaidOut v records [t] ([(layOut t records).1], (layOut t records).2)) :
    LaidOut v records ts (layOutArgs ts records) := by
  induction ts generalizing records with
  | nil => exact laidOut_nil records
  | cons t ts ih =>
    have first := each t List.mem_cons_self records
    exact first.cons (ih _ fun t' ht' => each t' (List.mem_cons_of_mem _ ht'))

theorem laidOut_leaf (records : Array Record) {t : Term} (allowed : v.Allows 0 node)
    (term : ∀ g : TermGraph, g.termAt node = t) : LaidOut v records [t] ([node], records) := by
  obtain ⟨hgrows, hordered, -, -, -⟩ := laidOut_nil (v := v) records
  refine ⟨hgrows, hordered, ?_, rfl, ?_⟩
  · intro node' hnode'
    obtain rfl := List.mem_singleton.1 hnode'
    exact allowed.mono (Nat.zero_le _)
  · intro g _ _
    rw [List.map_singleton, term]

theorem laidOut_layOut {t : Term} (covered : v.Covers t) (records : Array Record) :
    LaidOut v records [t] ([(layOut t records).1], (layOut t records).2) := by
  induction covered generalizing records with
  | var id => exact laidOut_leaf records trivial fun _ => by simp [layOut, termAt]
  | const known => exact laidOut_leaf records known fun _ => by simp [layOut, termAt]
  | app known _ ih =>
    rw [layOut]
    exact (laidOut_layOutArgs records ih).push known

theorem recordsIn_ofTerm {t : Term} (covered : v.Covers t) :
    (ofTerm t).RecordsIn v ∧ (ofTerm t).IsOrdered :=
  recordsIn_and_isOrdered_iff.2 fun index r found =>
    (laidOut_layOut covered #[]).ordered index r (Nat.zero_le _) found

theorem isOrdered_ofTerm (t : Term) : (ofTerm t).IsOrdered :=
  (recordsIn_ofTerm (Vocabulary.any_covers t)).2

theorem term_ofTerm (t : Term) : (ofTerm t).term = t := by
  have laid := laidOut_layOut (Vocabulary.any_covers t) #[]
  have hterms := laid.terms (ofTerm t) (isOrdered_ofTerm t) ⟨#[], by rw [Array.append_empty]; rfl⟩
  exact (List.cons.inj hterms).1

theorem isOf_ofTerm {t : Term} (covered : v.Covers t) : (ofTerm t).IsOf v := by
  refine ⟨(recordsIn_ofTerm covered).1, (laidOut_layOut covered #[]).nodes _ List.mem_cons_self, ?_⟩
  intro hleaf
  cases covered with
  | var id => rfl
  | const known => rfl
  | app known hargs => exact absurd rfl hleaf

/-- The graph of the same term, laid out anew unless it is a leaf. -/
def compacted (g : TermGraph) : TermGraph :=
  match g.root with
  | .func _ => ofTerm g.term
  | _ => g

theorem IsOf.compacted (h : g.IsOf v) : g.compacted.IsOf v := by
  rw [TermGraph.compacted]
  split
  next => exact isOf_ofTerm h.covers_term
  next => exact h

theorem IsOf.isOrdered_compacted (h : g.IsOf v) : g.compacted.IsOrdered := by
  rw [TermGraph.compacted]
  split
  next => exact isOrdered_ofTerm g.term
  next hleaf =>
    intro index r found
    have hempty : g.records = #[] := h.bare fun hfunc => by
      cases hroot : g.root with
      | func index => exact hleaf index hroot
      | free id => simp [hroot, Node.kind] at hfunc
      | const symbol => simp [hroot, Node.kind] at hfunc
    simp [hempty] at found

theorem term_compacted (g : TermGraph) : g.compacted.term = g.term := by
  rw [compacted]
  split
  next => exact term_ofTerm g.term
  next => rfl

theorem IsOf.fill (h : g.IsOf v) {image : Nat → Option TermGraph}
    (images : ∀ id other, image id = some other → other.IsOf v) : (g.fill image).IsOf v := by
  obtain ⟨hrecords, hgrows, hroot⟩ := h.records.fillRecords images g.size 0
  refine ⟨hrecords, ?_, ?_⟩
  · show v.Allows _ (fillRecords image g.size 0 g).root
    rw [hroot]
    exact h.root.mono hgrows
  · intro hleaf
    have hempty : g.records = #[] := h.bare (hroot ▸ hleaf)
    show (fillRecords image g.records.size 0 g).records = #[]
    rw [hempty]
    exact hempty

/-- A leaf at the root is the only position there is, so a position in an argument slot is one of a
graph with records. -/
theorem kind_root_of_slot {p : Position} (hp : p ∈ g.positions) (below : p.slot ≠ none) :
    g.root.kind = .func := by
  have leaf : ∀ node : Node, (∀ index, node ≠ .func index) →
      p ∉ g.positionsFrom g.size ⟨node, none⟩ := by
    intro node hnode hp
    have hstart : p = ⟨node, none⟩ := by
      cases node with
      | func index => exact absurd rfl (hnode index)
      | free id => cases hsize : g.size <;> simpa [hsize, positionsFrom] using hp
      | const symbol => cases hsize : g.size <;> simpa [hsize, positionsFrom] using hp
    exact below (by rw [hstart])
  cases hroot : g.root with
  | func index => rfl
  | free id => exact absurd (hroot ▸ hp) (leaf (.free id) fun _ => nofun)
  | const symbol => exact absurd (hroot ▸ hp) (leaf (.const symbol) fun _ => nofun)

end TermGraph

end Equational
