import Equational.Proofs.Merging
import Mathlib.Logic.Function.Basic

/-!
# Tables as columns that are edited in place

A table can be kept as four columns, as archives have them, and be changed by writing to one column
after the other. Between two writes the columns do not fit together, and if a check failed there
the table would be left damaged. `Archive.Columns.Edit` has such changes: what was written before a
failure stays written, and an index outside of a column is a failure as well.

The operations on graphs are spelled out this way, check by check and write by write. Each one does
to the columns of a graph what the operation does to the graph, and one that fails has written
nothing (`Archive.Columns.Edit.Follows`). So in any sequence of operations on any number of tables
the columns fit together after every operation (`Operation.columns_stay_consistent`).
-/

namespace Equational

open Archive

/-! ### Columns that fit together -/

namespace Archive.Columns

def empty : Columns := ⟨.free 0, [], [], [], []⟩

def size (c : Columns) : Nat := c.symbols.length

/-- The columns have one entry for each record, the entries of a record agree on its arity, which
is not zero, and the root and all arguments that name records name records of the table. -/
structure IsConsistent (c : Columns) : Prop where
  arities : c.arities.length = c.symbols.length
  ids : c.ids.length = c.symbols.length
  kinds : c.kinds.length = c.symbols.length
  arity : ∀ (index arity : Nat) (ids : List Nat) (kinds : List NodeKind),
    c.arities[index]? = some arity → c.ids[index]? = some ids → c.kinds[index]? = some kinds →
      0 < arity ∧ ids.length = arity ∧ kinds.length = arity
  child : ∀ (index slot id : Nat) (ids : List Nat) (kinds : List NodeKind),
    c.ids[index]? = some ids → c.kinds[index]? = some kinds → ids[slot]? = some id →
      kinds[slot]? = some .func → id < c.symbols.length
  root : ∀ index, c.root = .func index → index < c.symbols.length

@[simp] theorem size_ofGraph (g : TermGraph) : (ofGraph g).size = g.size := by
  simp [size, ofGraph, TermGraph.size]

end Archive.Columns

theorem TermGraph.IsFormed.isConsistent {g : TermGraph} (formed : g.IsFormed) :
    (Columns.ofGraph g).IsConsistent where
  arities := by simp [Columns.ofGraph]
  ids := by simp [Columns.ofGraph]
  kinds := by simp [Columns.ofGraph]
  arity index arity ids kinds harity hids hkinds := by
    simp only [Columns.ofGraph, List.getElem?_map, Option.map_eq_some_iff] at harity hids hkinds
    obtain ⟨r, hr, rfl⟩ := harity
    obtain ⟨_, hr', rfl⟩ := hids
    obtain ⟨_, hr'', rfl⟩ := hkinds
    obtain rfl := Option.some.inj (hr.symm.trans hr')
    obtain rfl := Option.some.inj (hr.symm.trans hr'')
    refine ⟨formed.arity r (Array.mem_toList_iff.1 (List.mem_of_getElem? hr)), ?_, ?_⟩
    · exact List.length_map _
    · exact List.length_map _
  child index slot id ids kinds hids hkinds hid hkind := by
    simp only [Columns.ofGraph, List.getElem?_map, Option.map_eq_some_iff] at hids hkinds
    obtain ⟨r, hr, rfl⟩ := hids
    obtain ⟨_, hr', rfl⟩ := hkinds
    obtain rfl := Option.some.inj (hr.symm.trans hr')
    simp only [List.getElem?_map, Option.map_eq_some_iff] at hid hkind
    obtain ⟨node, hnode, rfl⟩ := hid
    obtain ⟨_, hnode', hkind⟩ := hkind
    obtain rfl := Option.some.inj (hnode.symm.trans hnode')
    obtain ⟨index, rfl⟩ := Node.kind_eq_func_iff.1 hkind
    have held := formed.args r (Array.mem_toList_iff.1 (List.mem_of_getElem? hr)) _
      (List.mem_of_getElem? hnode)
    exact Nat.lt_of_lt_of_eq (of_decide_eq_true held) (Columns.size_ofGraph g).symm
  root index hroot := by
    have held := formed.root
    rw [show g.root = .func index from hroot] at held
    exact Nat.lt_of_lt_of_eq (of_decide_eq_true held) (Columns.size_ofGraph g).symm

/-! ### Edits -/

namespace Archive.Columns

/-- A computation that changes columns in place. A violation stops it, and does not undo what was
written before. -/
abbrev Edit := ExceptT Violation (StateM Columns)

namespace Edit

variable {α β : Type} {g : TermGraph} {c : Columns}

def runOn (m : Edit α) (c : Columns) : Except Violation α × Columns := m.run c

/-- Stops unless the condition holds. -/
def check (condition : Bool) (cause : Violation) : Edit Unit :=
  if condition then pure () else throw cause

/-- An entry of a column. -/
def entry (column : List α) (index : Nat) : Edit α :=
  match column[index]? with
  | some a => pure a
  | none => throw (.indexOutOfRange index)

theorem runOn_bind (m : Edit α) (f : α → Edit β) :
    (m >>= f).runOn c =
      match m.runOn c with
      | (.ok a, c) => (f a).runOn c
      | (.error cause, c) => (.error cause, c) := by
  simp only [runOn, ExceptT.run, Bind.bind, ExceptT.bind, ExceptT.mk, StateT.bind]
  rcases m c with ⟨_ | a, c'⟩
  · rfl
  · rfl

@[simp] theorem runOn_pure (a : α) : (pure a : Edit α).runOn c = (.ok a, c) := rfl

@[simp] theorem runOn_get_bind (f : Columns → Edit α) :
    ((get : Edit Columns) >>= f).runOn c = (f c).runOn c := rfl

@[simp] theorem runOn_modify (write : Columns → Columns) :
    (modify write : Edit PUnit).runOn c = (.ok (), write c) := rfl

@[simp] theorem runOn_modify_bind (write : Columns → Columns) (f : PUnit → Edit α) :
    ((modify write : Edit PUnit) >>= f).runOn c = (f ()).runOn (write c) := rfl

theorem runOn_check_bind {condition : Bool} (cause : Violation) (f : Unit → Edit α) :
    (check condition cause >>= f).runOn c =
      if condition then (f ()).runOn c else (.error cause, c) := by
  cases condition with
  | true => rfl
  | false => rfl

theorem runOn_entry_bind {column : List α} {index : Nat} {a : α} (found : column[index]? = some a)
    (f : α → Edit β) : (entry column index >>= f).runOn c = (f a).runOn c := by
  rw [entry, found]
  rfl

/-- The edit does to the columns of a graph what the change does to the graph, and with the same
result. If the change fails, the edit does, and the columns are as they were. -/
def Follows (m : Edit α) (g : TermGraph) (change : Checked (α × TermGraph)) : Prop :=
  m.runOn (ofGraph g) =
    match change with
    | .ok (a, g') => (.ok a, ofGraph g')
    | .error cause => (.error cause, ofGraph g)

theorem Follows.map {m : Edit α} {change : Checked (α × TermGraph)} (follows : m.Follows g change)
    (f : α → β) :
    (do let a ← m; pure (f a) : Edit β).Follows g
      (change.map fun result => (f result.1, result.2)) := by
  unfold Follows at follows ⊢
  rw [runOn_bind, follows]
  cases change with
  | error cause => rfl
  | ok result => rfl

end Edit

/-! ### The operations on columns -/

open Edit

/-- Moves the root. A leaf leaves the columns empty. -/
def setRoot (node : Node) : Edit Unit := do
  match node with
  | .func index => check (index < (← get).size) (.rootOutOfRange index)
  | _ =>
    if 0 < (← get).size then
      modify fun c => { c with symbols := [] }
      modify fun c => { c with arities := [] }
      modify fun c => { c with ids := [] }
      modify fun c => { c with kinds := [] }
  modify fun c => { c with root := node }

def leaf (node : Node) : Checked Columns := do
  require (node.kind ≠ .func) .functionLeaf
  let (result, c) := (setRoot node).runOn empty
  result
  pure c

/-- An argument that names a record names one that exists. -/
def checkChild (id : Nat) (kind : NodeKind) : Edit Unit := do
  if kind = .func then
    check (id < (← get).size) (.childNotStored id)

def checkChildren : List Nat → List NodeKind → Edit Unit
  | id :: ids, kind :: kinds => do
    checkChild id kind
    checkChildren ids kinds
  | _, _ => pure ()

/-- Writes a record at the end of the columns. -/
def push (symbol : Nat) (ids : List Nat) (kinds : List NodeKind) : Edit Unit := do
  modify fun c => { c with symbols := c.symbols ++ [symbol] }
  modify fun c => { c with arities := c.arities ++ [ids.length] }
  modify fun c => { c with ids := c.ids ++ [ids] }
  modify fun c => { c with kinds := c.kinds ++ [kinds] }

/-- Adds a record, and tells its number. -/
def add (symbol : Nat) (ids : List Nat) (kinds : List NodeKind) : Edit Nat := do
  check (0 < ids.length) .recordWithoutArguments
  check (ids.length = kinds.length) .columnsDiffer
  checkChildren ids kinds
  let index := (← get).size
  push symbol ids kinds
  pure index

/-- Writes the id of a node into an argument slot, and then its kind. -/
def writeArg (index slot : Nat) (node : Node) : Edit Unit := do
  let ids ← entry (← get).ids index
  let _ ← entry ids slot
  modify fun c => { c with ids := c.ids.set index (ids.set slot node.id) }
  let kinds ← entry (← get).kinds index
  let _ ← entry kinds slot
  modify fun c => { c with kinds := c.kinds.set index (kinds.set slot node.kind) }

/-- Puts a node into an argument slot of a record. -/
def setArg (index slot : Nat) (node : Node) : Edit Unit := do
  check (index < (← get).size) (.recordOutOfRange index)
  let arity ← entry (← get).arities index
  check (slot < arity) (.argumentOutOfRange slot arity)
  checkChild node.id node.kind
  writeArg index slot node

/-- The ids of arguments in a table that has `offset` records before this one. -/
def offsetIds (offset : Nat) (ids : List Nat) (kinds : List NodeKind) : List Nat :=
  List.zipWith (fun id kind => if kind = .func then id + offset else id) ids kinds

/-- Writes the records of other columns behind the records there are, and tells where their root is
now. -/
def merge (other : Columns) : Edit Node := do
  match other.root with
  | .func index =>
    let offset := (← get).size
    modify fun c => { c with symbols := c.symbols ++ other.symbols }
    modify fun c => { c with arities := c.arities ++ other.arities }
    modify fun c => { c with ids := c.ids ++ List.zipWith (offsetIds offset) other.ids other.kinds }
    modify fun c => { c with kinds := c.kinds ++ other.kinds }
    pure (.func (index + offset))
  | leaf => pure leaf

/-- Takes columns from an archive and moves the root to where it is, which drops the records of a
leaf. -/
def load (bytes : Bytes) : Except ArchiveError Columns :=
  match take bytes with
  | .error e => .error e
  | .ok (c, _) =>
    match c.graph with
    | .error cause => .error (.malformed cause)
    | .ok _ => .ok ((setRoot c.root).runOn c).2

/-! ### Edits follow the operations on graphs -/

variable {g other : TermGraph}

theorem runOn_setRoot_leaf (c : Columns) {node : Node} (leaf : ∀ index, node ≠ .func index) :
    (setRoot node).runOn c =
      (.ok (), if 0 < c.size then ⟨node, [], [], [], []⟩ else { c with root := node }) := by
  cases node with
  | func index => exact absurd rfl (leaf index)
  | free id => by_cases hsize : 0 < c.size <;> simp [setRoot, hsize]
  | const symbol => by_cases hsize : 0 < c.size <;> simp [setRoot, hsize]

theorem follows_setRoot (g : TermGraph) (node : Node) :
    (setRoot node).Follows g ((g.setRoot node).map fun g' => ((), g')) := by
  have hleaf {node : Node} (leaf : ∀ index, node ≠ .func index) :
      (setRoot node).runOn (ofGraph g) = (.ok (), ofGraph { root := node }) := by
    rw [runOn_setRoot_leaf _ leaf, size_ofGraph]
    split
    next => rfl
    next hsize =>
      have hrecords : g.records = #[] := Array.size_eq_zero_iff.1 (Nat.eq_zero_of_not_pos hsize)
      simp [ofGraph, hrecords]
  unfold Edit.Follows
  cases node with
  | free id => exact hleaf (by simp)
  | const symbol => exact hleaf (by simp)
  | func index =>
    simp only [setRoot, runOn_get_bind, size_ofGraph, runOn_check_bind, decide_eq_true_eq,
      runOn_modify, TermGraph.setRoot]
    split
    next => rfl
    next => rfl

theorem runOn_checkChild (g : TermGraph) (id : Nat) (kind : NodeKind) :
    (checkChild id kind).runOn (ofGraph g) =
      (if g.holds (.ofKind kind id) then .ok () else .error (.childNotStored id), ofGraph g) := by
  cases kind with
  | free => rfl
  | const => rfl
  | func =>
    by_cases hlt : id < g.size
    · simp [checkChild, check, Node.ofKind, TermGraph.holds, hlt]
    · simp [checkChild, check, Node.ofKind, TermGraph.holds, hlt]
      rfl

theorem runOn_checkChildren (g : TermGraph) (ids : List Nat) (kinds : List NodeKind) :
    (checkChildren ids kinds).runOn (ofGraph g) =
      (match g.missing? (List.zipWith Node.ofKind kinds ids) with
        | some node => .error (.childNotStored node.id)
        | none => .ok (), ofGraph g) := by
  induction ids generalizing kinds with
  | nil => cases kinds <;> rfl
  | cons id ids ih =>
    cases kinds with
    | nil => rfl
    | cons kind kinds =>
      rw [checkChildren, runOn_bind, runOn_checkChild, List.zipWith_cons_cons, TermGraph.missing?,
        List.find?_cons]
      by_cases held : g.holds (.ofKind kind id) = true
      · simp only [held, if_true, Bool.not_true]
        exact ih kinds
      · simp [held, id_ofKind]

theorem runOn_push (g : TermGraph) (symbol : Nat) {args : List Node} :
    (push symbol (args.map Node.id) (args.map Node.kind)).runOn (ofGraph g) =
      (.ok (), ofGraph { g with records := g.records.push ⟨symbol, args⟩ }) := by
  simp [push, ofGraph, Record.arity]

theorem follows_add (g : TermGraph) (symbol : Nat) (ids : List Nat) (kinds : List NodeKind) :
    (add symbol ids kinds).Follows g
      ((g.addColumns symbol ids kinds).map fun g' => (g.size, g')) := by
  unfold Edit.Follows
  rw [add, runOn_check_bind, runOn_check_bind, TermGraph.addColumns, TermGraph.add]
  by_cases hempty : ids = []
  · subst hempty
    rfl
  by_cases hlength : ids.length = kinds.length
  · obtain ⟨hids, hkinds⟩ := map_zipWith_ofKind hlength.symm
    have hargs : List.zipWith Node.ofKind kinds ids ≠ [] := by
      rintro hnil
      rw [hnil] at hids
      exact hempty hids.symm
    rw [runOn_bind, runOn_checkChildren]
    generalize List.zipWith Node.ofKind kinds ids = args at *
    subst hids hkinds
    cases g.missing? args with
    | some node => simp [hargs, Except.map]
    | none =>
      dsimp only
      rw [runOn_get_bind, runOn_bind, runOn_push, size_ofGraph]
      simp [hargs, Except.map, List.length_pos_iff.2 hargs]
  · simp [hempty, hlength, Except.map, List.length_pos_iff.2 hempty]

/-- An entry that is changed in some parts only leaves the column of another part as it is. -/
theorem map_set_of_getElem? {α β : Type} {l : List α} {index : Nat} {a a' : α}
    (found : l[index]? = some a) {f : α → β} (same : f a' = f a) :
    (l.set index a').map f = l.map f := by
  obtain ⟨hlt, rfl⟩ := List.getElem?_eq_some_iff.1 found
  have hlt' : index < (l.map f).length := by simpa using hlt
  have hself : (l.map f)[index] = f l[index] := by simp
  rw [List.map_set, same, ← hself, List.set_getElem_self]

theorem runOn_writeArg {index slot : Nat} {r : Record} (found : g.records[index]? = some r)
    (lt : slot < r.arity) (node : Node) :
    (writeArg index slot node).runOn (ofGraph g) = (.ok (), ofGraph
      { g with records := g.records.setIfInBounds index ⟨r.symbol, r.args.set slot node⟩ }) := by
  have hids : (ofGraph g).ids[index]? = some (r.args.map Node.id) := by simp [ofGraph, found]
  have hkinds : (ofGraph g).kinds[index]? = some (r.args.map Node.kind) := by
    simp [ofGraph, found]
  have hold : r.args[slot]? = some (r.args.get ⟨slot, lt⟩) := List.getElem?_eq_getElem lt
  have hid : (r.args.map Node.id)[slot]? = some (r.args.get ⟨slot, lt⟩).id := by
    rw [List.getElem?_map, hold]
    rfl
  have hkind : (r.args.map Node.kind)[slot]? = some (r.args.get ⟨slot, lt⟩).kind := by
    rw [List.getElem?_map, hold]
    rfl
  rw [writeArg, runOn_get_bind, runOn_entry_bind hids, runOn_entry_bind hid, runOn_modify_bind,
    runOn_get_bind, runOn_entry_bind hkinds, runOn_entry_bind hkind, runOn_modify]
  have hr : g.records.toList[index]? = some r := by rw [Array.getElem?_toList, found]
  have hsymbol : Record.symbol ⟨r.symbol, r.args.set slot node⟩ = r.symbol := rfl
  have harity : Record.arity ⟨r.symbol, r.args.set slot node⟩ = r.arity := List.length_set
  simp only [ofGraph, Array.toList_setIfInBounds]
  -- The two columns that are not written hold what they are to hold.
  rw [map_set_of_getElem? hr hsymbol, map_set_of_getElem? hr harity]
  simp only [List.map_set]

theorem follows_setArg (g : TermGraph) (index slot : Nat) (node : Node) :
    (setArg index slot node).Follows g
      ((g.setArg index slot node).map fun g' => ((), g')) := by
  unfold Edit.Follows
  rw [setArg, runOn_get_bind, runOn_check_bind, size_ofGraph, TermGraph.setArg]
  cases found : g.records[index]? with
  | none =>
    have hle : ¬index < g.size := Nat.not_lt.2 (Array.getElem?_eq_none_iff.1 found)
    simp [hle, Except.map]
  | some r =>
    have hlt : index < g.size := (Array.getElem?_eq_some_iff.1 found).1
    have harity : (ofGraph g).arities[index]? = some r.arity := by simp [ofGraph, found]
    rw [runOn_get_bind, runOn_entry_bind harity, runOn_check_bind, runOn_bind, runOn_checkChild,
      ofKind_kind_id]
    by_cases hslot : slot < r.arity
    · by_cases held : g.holds node = true
      · simp [hlt, hslot, held, Except.map, runOn_writeArg found hslot, Nat.not_le.2 hslot]
      · simp [hlt, hslot, held, Except.map, Nat.not_le.2 hslot]
    · simp [hlt, hslot, Except.map, Nat.not_lt.1 hslot]

theorem offsetIds_eq (offset : Nat) (args : List Node) :
    offsetIds offset (args.map Node.id) (args.map Node.kind) =
      (args.map (Node.offset offset)).map Node.id := by
  rw [offsetIds, List.zipWith_map, List.zipWith_self, List.map_map]
  apply List.map_congr_left
  intro node _
  cases node <;> rfl

theorem kind_offset (offset : Nat) (node : Node) : (node.offset offset).kind = node.kind := by
  cases node <;> rfl

/-- The columns of records that are copied behind others: only the ids of records change. -/
theorem runOn_merge (g other : TermGraph) :
    (merge (ofGraph other)).runOn (ofGraph g) =
      (.ok (g.absorb other).1, ofGraph (g.absorb other).2) := by
  have hcopies : ofGraph { other with records := other.records.map (Record.offset g.size) } =
      { ofGraph other with
        ids := List.zipWith (offsetIds g.size) (ofGraph other).ids (ofGraph other).kinds } := by
    simp [ofGraph, Record.offset, Record.arity, kind_offset, offsetIds_eq, Function.comp_def,
      List.zipWith_map, List.zipWith_self]
  have hroot : (ofGraph other).root = other.root := rfl
  rw [merge, hroot, TermGraph.absorb]
  cases other.root with
  | free id => rfl
  | const symbol => rfl
  | func index =>
    simp only [runOn_get_bind, runOn_modify_bind, runOn_pure, size_ofGraph]
    simp only [ofGraph, Columns.mk.injEq, Array.toList_map] at hcopies
    simp [ofGraph, hcopies]

theorem leaf_eq (node : Node) : leaf node = (TermGraph.leaf node).map ofGraph := by
  cases node with
  | free id => rfl
  | const symbol => rfl
  | func index => rfl

theorem load_eq (bytes : Bytes) :
    load bytes = (TermGraph.load bytes).map fun result => ofGraph result.1 := by
  rw [load, TermGraph.load]
  cases take bytes with
  | error e => rfl
  | ok result =>
    obtain ⟨c, rest⟩ := result
    dsimp only
    cases hgraph : c.graph with
    | error cause => rfl
    | ok g =>
      obtain ⟨h, rfl, -, -, hset⟩ := graph_eq_ok_iff.1 hgraph
      have hroot := follows_setRoot h h.root
      unfold Edit.Follows at hroot
      rw [hset] at hroot
      simp only [show (ofGraph h).root = h.root from rfl, hroot, Except.map]

end Archive.Columns

/-! ### Shared graphs -/

namespace SharedGraph

theorem graph_setRoot (g : SharedGraph) (node : Node) :
    (g.setRoot node).map SharedGraph.graph = g.graph.setRoot node := by
  rw [setRoot]
  cases g.graph.setRoot node with
  | error cause => rfl
  | ok graph =>
    show Except.ok (if graph.size = g.size then { g with graph } else own graph).graph = _
    split
    next => rfl
    next => rfl

theorem graph_addColumns (g : SharedGraph) (symbol : Nat) (ids : List Nat) (kinds : List NodeKind) :
    (g.addColumns symbol ids kinds).map SharedGraph.graph =
      g.graph.addColumns symbol ids kinds := by
  rw [addColumns]
  cases g.graph.addColumns symbol ids kinds <;> rfl

theorem graph_setArg (g : SharedGraph) (index slot : Nat) (node : Node) :
    (g.setArg index slot node).map SharedGraph.graph = g.graph.setArg index slot node := by
  rw [setArg]
  cases g.graph.setArg index slot node <;> rfl

end SharedGraph

/-! ### Tables stay well-formed -/

namespace TermGraph

variable {g g' : TermGraph}

theorem isFormed_leaf {node : Node} (leaf : ∀ index, node ≠ .func index) :
    IsFormed { root := node } := by
  refine ⟨?_, by simp, by simp⟩
  cases node with
  | free id => rfl
  | const symbol => rfl
  | func index => exact absurd rfl (leaf index)

theorem isFormed_of_leaf_ok {node : Node} (ok : TermGraph.leaf node = .ok g) : g.IsFormed := by
  cases node with
  | func index => cases ok
  | free id =>
    obtain rfl := Except.ok.inj ok
    exact isFormed_leaf (by simp)
  | const symbol =>
    obtain rfl := Except.ok.inj ok
    exact isFormed_leaf (by simp)

/-- A record is added only if it has arguments, and all of them are there. -/
theorem of_addColumns_ok {symbol : Nat} {ids : List Nat} {kinds : List NodeKind}
    (ok : g.addColumns symbol ids kinds = .ok g') :
    List.zipWith Node.ofKind kinds ids ≠ [] ∧
      g.missing? (List.zipWith Node.ofKind kinds ids) = none ∧
      g' = { g with
        records := g.records.push ⟨symbol, List.zipWith Node.ofKind kinds ids⟩ } := by
  rw [TermGraph.addColumns] at ok
  split at ok
  next => cases ok
  next =>
    split at ok
    next => cases ok
    next =>
      rw [add] at ok
      split at ok
      next => cases ok
      next hargs =>
        split at ok
        next => cases ok
        next hmissing => exact ⟨by simpa using hargs, hmissing, (Except.ok.inj ok).symm⟩

namespace IsFormed

theorem setRoot (formed : g.IsFormed) {node : Node} (ok : g.setRoot node = .ok g') :
    g'.IsFormed := by
  obtain ⟨allowed, rfl⟩ := setRoot_eq_ok_iff.1 ok
  cases node with
  | free id => exact isFormed_leaf (by simp)
  | const symbol => exact isFormed_leaf (by simp)
  | func index => exact ⟨plain_allows_iff_holds.1 allowed, formed.arity, formed.args⟩

theorem addColumns (formed : g.IsFormed) {symbol : Nat} {ids : List Nat} {kinds : List NodeKind}
    (ok : g.addColumns symbol ids kinds = .ok g') : g'.IsFormed := by
  obtain ⟨hargs, hmissing, rfl⟩ := of_addColumns_ok ok
  generalize List.zipWith Node.ofKind kinds ids = args at hargs hmissing ⊢
  obtain ⟨records, allowed⟩ := isFormed_iff.1 formed
  have hrecord : Vocabulary.plain.AllowsRecord g.size ⟨symbol, args⟩ := by
    refine ⟨List.length_pos_iff.2 hargs, fun node hnode => ?_⟩
    rw [plain_allows_iff_holds]
    simpa using List.find?_eq_none.1 hmissing node hnode
  have hsize : g.size ≤ (g.records.push ⟨symbol, args⟩).size := by
    rw [Array.size_push]
    exact Nat.le_succ _
  refine isFormed_iff.2 ⟨?_, allowed.mono hsize⟩
  exact (records.isOf_extend hrecord).records

theorem setArg (formed : g.IsFormed) {index slot : Nat} {node : Node}
    (ok : g.setArg index slot node = .ok g') : g'.IsFormed := by
  obtain ⟨records, allowed⟩ := isFormed_iff.1 formed
  obtain ⟨-, -, -, held, -⟩ := setArg_eq_ok_iff.1 ok
  obtain ⟨records', hroot, hsize⟩ := records.setArg (plain_allows_iff_holds.2 held) ok
  refine isFormed_iff.2 ⟨records', ?_⟩
  rw [hroot, hsize]
  exact allowed

end IsFormed

/-- Operations on graphs say what is wrong before they look at a record that is not there. -/
theorem changes_ne_indexOutOfRange (g : TermGraph) (i : Nat) :
    (∀ node, g.setRoot node ≠ .error (.indexOutOfRange i)) ∧
    (∀ symbol ids kinds, g.addColumns symbol ids kinds ≠ .error (.indexOutOfRange i)) ∧
    ∀ index slot node, g.setArg index slot node ≠ .error (.indexOutOfRange i) := by
  refine ⟨?_, ?_, ?_⟩
  · intro node
    cases node with
    | free id => simp [TermGraph.setRoot]
    | const symbol => simp [TermGraph.setRoot]
    | func index =>
      rw [TermGraph.setRoot]
      split <;> simp
  · intro symbol ids kinds
    rw [TermGraph.addColumns, add]
    repeat' split
    all_goals simp
  · intro index slot node
    rw [TermGraph.setArg]
    repeat' split
    all_goals simp

theorem isFormed_of_load_ok {bytes rest : Bytes} (ok : load bytes = .ok (g, rest)) :
    g.IsFormed := by
  obtain ⟨h, -, records, -, hset⟩ := load_eq_ok_iff.1 ok
  have hallowed := (setRoot_eq_ok_iff.1 hset).1
  exact (isFormed_iff.2 ⟨records, hallowed⟩).setRoot hset

end TermGraph

/-! ### Sequences of operations -/

/-- Why an operation on a table fails. -/
inductive Failure where
  | violation (cause : Violation)
  | archive (cause : ArchiveError)

/-- An operation on tables that are kept under numbers. The first number says where the table is
that the operation makes or changes, and a second one where another table is. -/
inductive Operation where
  | new (t : Nat)
  | leaf (t : Nat) (node : Node)
  | copy (t other : Nat)
  | setRoot (t : Nat) (node : Node)
  | add (t symbol : Nat) (ids : List Nat) (kinds : List NodeKind)
  | setArg (t index slot : Nat) (node : Node)
  | merge (t other : Nat)
  | load (t : Nat) (bytes : Bytes)

namespace Operation

section Graphs

variable (graphs : Nat → SharedGraph) (t : Nat)

def making : Except Failure SharedGraph → Except Failure (Option Node × (Nat → SharedGraph))
  | .ok g => .ok (none, Function.update graphs t g)
  | .error cause => .error cause

def changing :
    Checked (Option Node × SharedGraph) → Except Failure (Option Node × (Nat → SharedGraph))
  | .ok (answer, g) => .ok (answer, Function.update graphs t g)
  | .error cause => .error (.violation cause)

/-- What an operation answers, and the graphs after it, unless it fails. -/
def onGraphs : Operation → Except Failure (Option Node × (Nat → SharedGraph))
  | .new t => making graphs t (.ok (.own .empty))
  | .leaf t node => making graphs t (((TermGraph.leaf node).map .own).mapError .violation)
  | .copy t other => making graphs t (.ok (graphs other))
  | .setRoot t node => changing graphs t (((graphs t).setRoot node).map fun g => (none, g))
  | .add t symbol ids kinds =>
    changing graphs t (((graphs t).addColumns symbol ids kinds).map fun g =>
      (some (.func (graphs t).size), g))
  | .setArg t index slot node =>
    changing graphs t (((graphs t).setArg index slot node).map fun g => (none, g))
  | .merge t other =>
    let merged := (graphs t).absorb (graphs other).graph
    changing graphs t (.ok (some merged.1, merged.2))
  | .load t bytes =>
    making graphs t (((TermGraph.load bytes).map fun result => .own result.1).mapError .archive)

end Graphs

section Tables

variable (tables : Nat → Columns) (t : Nat)

/-- Puts columns in the place of those there are. -/
def replacing : Except Failure Columns → Except Failure (Option Node) × (Nat → Columns)
  | .ok c => (.ok none, Function.update tables t c)
  | .error cause => (.error cause, tables)

/-- Edits columns in place, and keeps what the edit leaves, whether it fails or not. -/
def editing (edit : Columns.Edit (Option Node)) :
    Except Failure (Option Node) × (Nat → Columns) :=
  let (result, c) := edit.runOn (tables t)
  (result.mapError .violation, Function.update tables t c)

/-- What an operation answers, or why it fails, and the tables after it. -/
def onColumns : Operation → Except Failure (Option Node) × (Nat → Columns)
  | .new t => replacing tables t (.ok .empty)
  | .leaf t node => replacing tables t ((Columns.leaf node).mapError .violation)
  | .copy t other => replacing tables t (.ok (tables other))
  | .setRoot t node => editing tables t do
    Columns.setRoot node
    pure none
  | .add t symbol ids kinds => editing tables t do
    let index ← Columns.add symbol ids kinds
    pure (some (.func index))
  | .setArg t index slot node => editing tables t do
    Columns.setArg index slot node
    pure none
  | .merge t other => editing tables t do
    let node ← Columns.merge (tables other)
    pure (some node)
  | .load t bytes => replacing tables t ((Columns.load bytes).mapError .archive)

end Tables

/-! ### One operation -/

/-- The tables are the columns of well-formed graphs. -/
structure Shows (graphs : Nat → SharedGraph) (tables : Nat → Columns) : Prop where
  formed : ∀ t, (graphs t).graph.IsFormed
  columns : ∀ t, tables t = .ofGraph (graphs t).graph

/-- The operation on columns has the outcome of the operation on graphs. If it fails, the tables are
as they were. -/
def Agrees (tables : Nat → Columns) (outcome : Except Failure (Option Node) × (Nat → Columns)) :
    Except Failure (Option Node × (Nat → SharedGraph)) → Prop
  | .ok (answer, graphs) => outcome.1 = .ok answer ∧ Shows graphs outcome.2
  | .error cause => outcome = (.error cause, tables)

variable {graphs : Nat → SharedGraph} {tables : Nat → Columns}

namespace Shows

theorem isConsistent (shows : Shows graphs tables) (t : Nat) :
    (tables t).IsConsistent ∧ tables t = .ofGraph (graphs t).graph := by
  rw [shows.columns t]
  exact ⟨(shows.formed t).isConsistent, rfl⟩

theorem update (shows : Shows graphs tables) (t : Nat) {g : SharedGraph}
    (formed : g.graph.IsFormed) :
    Shows (Function.update graphs t g) (Function.update tables t (.ofGraph g.graph)) := by
  constructor
  · intro u
    by_cases hu : u = t
    · subst hu
      rwa [Function.update_self]
    · rw [Function.update_of_ne hu]
      exact shows.formed u
  · intro u
    by_cases hu : u = t
    · subst hu
      rw [Function.update_self, Function.update_self]
    · rw [Function.update_of_ne hu, Function.update_of_ne hu]
      exact shows.columns u

theorem making (shows : Shows graphs tables) (t : Nat) (made : Except Failure SharedGraph)
    (formed : ∀ g, made = .ok g → g.graph.IsFormed) :
    Agrees tables (replacing tables t (made.map fun g => .ofGraph g.graph))
      (Operation.making graphs t made) := by
  cases made with
  | error cause => rfl
  | ok g => exact ⟨rfl, shows.update t (formed g rfl)⟩

theorem changing (shows : Shows graphs tables) (t : Nat) {edit : Columns.Edit (Option Node)}
    {change : Checked (Option Node × SharedGraph)}
    (follows : edit.Follows (graphs t).graph (change.map fun result => (result.1, result.2.graph)))
    (formed : ∀ answer g, change = .ok (answer, g) → g.graph.IsFormed) :
    Agrees tables (editing tables t edit) (Operation.changing graphs t change) := by
  unfold Columns.Edit.Follows at follows
  rw [← shows.columns t] at follows
  cases change with
  | error cause =>
    have hrun : edit.runOn (tables t) = (.error cause, tables t) := follows
    show editing tables t edit = (.error (.violation cause), tables)
    rw [editing, hrun]
    exact congrArg (Prod.mk _) (Function.update_eq_self t tables)
  | ok result =>
    have hrun : edit.runOn (tables t) = (.ok result.1, .ofGraph result.2.graph) := follows
    have hshows := shows.update t (formed result.1 result.2 rfl)
    refine ⟨?_, ?_⟩
    · rw [editing, hrun]
      rfl
    · rw [editing, hrun]
      exact hshows

/-- A change that answers nothing but what was known before. -/
theorem changing_map {α : Type} (shows : Shows graphs tables) (t : Nat) {edit : Columns.Edit α}
    {changed : Checked SharedGraph} {a : α} (answer : α → Option Node)
    (follows : edit.Follows (graphs t).graph ((changed.map SharedGraph.graph).map fun g => (a, g)))
    (formed : ∀ g, changed.map SharedGraph.graph = .ok g → g.IsFormed) :
    Agrees tables (editing tables t do pure (answer (← edit)))
      (Operation.changing graphs t (changed.map fun g => (answer a, g))) := by
  apply shows.changing t
  · have hfollows := follows.map answer
    cases changed with
    | error cause => exact hfollows
    | ok g => exact hfollows
  · intro _ g hg
    cases changed with
    | error cause => cases hg
    | ok g' =>
      obtain ⟨-, rfl⟩ := Prod.mk.inj (Except.ok.inj hg)
      exact formed _ rfl

/-- What one operation does. -/
theorem agrees (shows : Shows graphs tables) (op : Operation) :
    Agrees tables (op.onColumns tables) (op.onGraphs graphs) := by
  cases op with
  | new t =>
    apply shows.making t (.ok (.own .empty))
    rintro _ ⟨⟩
    exact TermGraph.isFormed_leaf (by simp)
  | leaf t node =>
    rw [onColumns, onGraphs, Columns.leaf_eq]
    cases hleaf : TermGraph.leaf node with
    | error cause => rfl
    | ok g =>
      apply shows.making t (.ok (.own g))
      rintro _ ⟨⟩
      exact TermGraph.isFormed_of_leaf_ok hleaf
  | copy t other =>
    rw [onColumns, onGraphs, shows.columns other]
    apply shows.making t (.ok (graphs other))
    rintro _ ⟨⟩
    exact shows.formed other
  | load t bytes =>
    rw [onColumns, onGraphs, Columns.load_eq]
    cases hload : TermGraph.load bytes with
    | error e => rfl
    | ok result =>
      apply shows.making t (.ok (.own result.1))
      rintro _ ⟨⟩
      exact TermGraph.isFormed_of_load_ok hload
  | setRoot t node =>
    apply shows.changing_map t fun _ : Unit => none
    · rw [SharedGraph.graph_setRoot]
      exact Columns.follows_setRoot _ node
    · rw [SharedGraph.graph_setRoot]
      exact fun g ok => (shows.formed t).setRoot ok
  | add t symbol ids kinds =>
    apply shows.changing_map t fun index => some (.func index)
    · rw [SharedGraph.graph_addColumns]
      exact Columns.follows_add _ symbol ids kinds
    · rw [SharedGraph.graph_addColumns]
      exact fun g ok => (shows.formed t).addColumns ok
  | setArg t index slot node =>
    apply shows.changing_map t fun _ : Unit => none
    · rw [SharedGraph.graph_setArg]
      exact Columns.follows_setArg _ index slot node
    · rw [SharedGraph.graph_setArg]
      exact fun g ok => (shows.formed t).setArg ok
  | merge t other =>
    obtain ⟨hnode, hgraph⟩ := SharedGraph.graph_absorb (graphs t) (graphs other)
    rw [onColumns, onGraphs, shows.columns other]
    generalize (graphs t).absorb (graphs other).graph = merged at hnode hgraph ⊢
    apply shows.changing t
    · unfold Columns.Edit.Follows
      rw [Columns.Edit.runOn_bind, Columns.runOn_merge, ← hnode, ← hgraph]
      rfl
    · rintro _ _ ⟨⟩
      rw [hgraph]
      exact (shows.formed t).absorb (shows.formed other)

end Shows

theorem onGraphs_ne_indexOutOfRange {op : Operation} {index : Nat} :
    op.onGraphs graphs ≠ .error (.violation (.indexOutOfRange index)) := by
  have hmaking {t : Nat} {made : Except Failure SharedGraph}
      (made_ne : made ≠ .error (.violation (.indexOutOfRange index))) :
      making graphs t made ≠ .error (.violation (.indexOutOfRange index)) := by
    cases made with
    | ok g => simp [making]
    | error cause => simpa [making] using made_ne
  have hchanging {t : Nat} {changed : Checked SharedGraph} {answer : Option Node}
      (changed_ne : changed.map SharedGraph.graph ≠ .error (.indexOutOfRange index)) :
      changing graphs t (changed.map fun g => (answer, g)) ≠
        .error (.violation (.indexOutOfRange index)) := by
    cases changed with
    | ok g => simp [changing, Except.map]
    | error cause => simpa [changing, Except.map] using changed_ne
  cases op with
  | new t => simp [onGraphs, making]
  | copy t other => simp [onGraphs, making]
  | merge t other => simp [onGraphs, changing]
  | leaf t node =>
    apply hmaking
    cases node <;> simp [TermGraph.leaf, Except.map, Except.mapError]
  | load t bytes =>
    apply hmaking
    cases TermGraph.load bytes <;> simp [Except.map, Except.mapError]
  | setRoot t node =>
    apply hchanging
    rw [SharedGraph.graph_setRoot]
    exact ((graphs t).graph.changes_ne_indexOutOfRange index).1 node
  | add t symbol ids kinds =>
    apply hchanging
    rw [SharedGraph.graph_addColumns]
    exact ((graphs t).graph.changes_ne_indexOutOfRange index).2.1 symbol ids kinds
  | setArg t i slot node =>
    apply hchanging
    rw [SharedGraph.graph_setArg]
    exact ((graphs t).graph.changes_ne_indexOutOfRange index).2.2 i slot node

/-! ### All operations -/

/-- The graphs after the operations, if at first there is a new one under every number. -/
def graphsAfter (ops : List Operation) : Nat → SharedGraph :=
  ops.foldl (fun graphs op => ((op.onGraphs graphs).toOption.map Prod.snd).getD graphs)
    fun _ => .own .empty

/-- The tables after the operations, whether these fail or not. -/
def tablesAfter (ops : List Operation) : Nat → Columns :=
  ops.foldl (fun tables op => (op.onColumns tables).2) fun _ => .empty

theorem shows_after (ops : List Operation) : Shows (graphsAfter ops) (tablesAfter ops) := by
  have hstart : Shows (fun _ => .own .empty) fun _ => .empty :=
    ⟨fun _ => TermGraph.isFormed_leaf (by simp), fun _ => rfl⟩
  rw [graphsAfter, tablesAfter]
  generalize (fun _ : Nat => SharedGraph.own .empty) = graphs at hstart ⊢
  generalize (fun _ : Nat => Columns.empty) = tables at hstart ⊢
  induction ops generalizing graphs tables with
  | nil => exact hstart
  | cons op ops ih =>
    rw [List.foldl_cons, List.foldl_cons]
    apply ih
    have hagrees := hstart.agrees op
    cases hop : op.onGraphs graphs with
    | error cause =>
      rw [hop] at hagrees
      rw [show op.onColumns tables = _ from hagrees]
      exact hstart
    | ok result =>
      rw [hop] at hagrees
      exact hagrees.2

/-- **Columns stay consistent.** Take any operations on tables that are kept as four columns and
edited in place, with any arguments. After them the columns of every table have one length, every
record has as many arguments as its arity says and at least one, and no root and no argument names
a record that does not exist. The next operation fails exactly if the operation on graphs does, for
the same reason and not for an index that is out of range, and then leaves all tables as they
were. -/
theorem columns_stay_consistent (ops : List Operation) (op : Operation) :
    (∀ t, (tablesAfter ops t).IsConsistent ∧
      tablesAfter ops t = .ofGraph (graphsAfter ops t).graph) ∧
    match op.onColumns (tablesAfter ops) with
    | (.ok answer, tables) =>
      ∃ graphs, op.onGraphs (graphsAfter ops) = .ok (answer, graphs) ∧
        ∀ t, (tables t).IsConsistent ∧ tables t = .ofGraph (graphs t).graph
    | (.error cause, tables) =>
      op.onGraphs (graphsAfter ops) = .error cause ∧ tables = tablesAfter ops ∧
        ∀ index, cause ≠ .violation (.indexOutOfRange index) := by
  have shows := shows_after ops
  refine ⟨shows.isConsistent, ?_⟩
  have hagrees := shows.agrees op
  cases hop : op.onGraphs (graphsAfter ops) with
  | error cause =>
    rw [hop] at hagrees
    rw [show op.onColumns (tablesAfter ops) = _ from hagrees]
    refine ⟨rfl, rfl, ?_⟩
    rintro index rfl
    exact onGraphs_ne_indexOutOfRange hop
  | ok result =>
    obtain ⟨answer, graphs⟩ := result
    rw [hop] at hagrees
    obtain ⟨hanswer, shows'⟩ := hagrees
    rcases hcolumns : op.onColumns (tablesAfter ops) with ⟨outcome, tables⟩
    rw [hcolumns] at hanswer shows'
    dsimp only at hanswer shows'
    subst hanswer
    exact ⟨graphs, rfl, shows'.isConsistent⟩

end Operation

end Equational
