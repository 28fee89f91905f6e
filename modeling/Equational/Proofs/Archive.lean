import Equational.Proofs.Storage
import Equational.TermGraph.Archive
import Mathlib.Algebra.Group.Nat.Defs

/-!
# What an archive holds

Reading takes back what writing put, word by word and column by column, and leaves the bytes
after it alone. This needs every number to fit into its word: a larger one is cut off.

The columns of an archive are accepted if and only if they are those of a table whose records
all have arguments and stand in order. So what is read back is what was written exactly if its
records stand in order (`TermGraph.load_save_iff`). Which operations leave them so is not a
question of archives.
-/

namespace Equational

/-- The test that archives make of a node: it is no record, or one of the first `size`. -/
theorem Vocabulary.plain_allows_iff {size : Nat} {node : Node} :
    plain.Allows size node ↔ ¬(node.kind = .func && size ≤ node.id) = true := by
  cases node with
  | free id => simp [Allows, Node.kind]
  | const symbol => simp [Allows, plain, Node.kind]
  | func index =>
    rw [Bool.and_eq_true, decide_eq_true_eq, decide_eq_true_eq, not_and]
    exact ⟨fun hlt _ => Nat.not_le_of_lt hlt, fun h => Nat.lt_of_not_le (h rfl)⟩

/-- Every vocabulary restricts the constants only. -/
theorem Vocabulary.allows_iff_plain {v : Vocabulary} {size : Nat} {node : Node} :
    v.Allows size node ↔
      plain.Allows size node ∧ ∀ symbol, node = .const symbol → v.const symbol := by
  cases node with
  | free id => simp [Allows]
  | const symbol => simp [Allows, plain]
  | func index => simp [Allows]

theorem Node.kind_eq_func_iff {node : Node} : node.kind = .func ↔ ∃ index, node = .func index := by
  cases node <;> simp [kind]

theorem Node.kind_ne_func_iff {node : Node} : node.kind ≠ .func ↔ ∀ index, node ≠ .func index := by
  rw [ne_eq, kind_eq_func_iff, not_exists]

/-- Every record has arguments, and the root and all arguments name records of the table, within
reach or not. -/
structure TermGraph.IsFormed (g : TermGraph) : Prop where
  root : g.holds g.root = true
  arity : ∀ r ∈ g.records, 0 < r.arity
  args : ∀ r ∈ g.records, ∀ node ∈ r.args, g.holds node = true

theorem TermGraph.plain_allows_iff_holds {g : TermGraph} {node : Node} :
    Vocabulary.plain.Allows g.size node ↔ g.holds node = true := by
  cases node <;> simp [Vocabulary.Allows, Vocabulary.plain, holds]

theorem TermGraph.isFormed_iff {g : TermGraph} :
    g.IsFormed ↔ g.RecordsIn .plain ∧ Vocabulary.plain.Allows g.size g.root := by
  constructor
  · intro h
    refine ⟨fun r hr => ⟨h.arity r hr, fun node hnode => ?_⟩, plain_allows_iff_holds.2 h.root⟩
    exact plain_allows_iff_holds.2 (h.args r hr node hnode)
  · rintro ⟨records, root⟩
    refine ⟨plain_allows_iff_holds.1 root, fun r hr => (records r hr).1, fun r hr node hnode => ?_⟩
    exact plain_allows_iff_holds.1 ((records r hr).2 node hnode)

/-- Moving the root to a node of the table: a leaf leaves the records behind. -/
theorem TermGraph.setRoot_eq_ok_iff {g g' : TermGraph} {node : Node} :
    g.setRoot node = .ok g' ↔ Vocabulary.plain.Allows g.size node ∧
      g' = match node with
        | .func _ => { g with root := node }
        | _ => { root := node } := by
  cases node with
  | free id => simp [setRoot, Vocabulary.Allows, eq_comm]
  | const symbol => simp [setRoot, Vocabulary.Allows, Vocabulary.plain, eq_comm]
  | func index =>
    by_cases hlt : index < g.size
    · simp [setRoot, Vocabulary.Allows, hlt, eq_comm]
    · simp [setRoot, Vocabulary.Allows, hlt]

namespace Archive

/-! ### Words and lists -/

variable {α : Type} {take : Reader α} {put : α → Bytes}

/-- The item is read back as it was written, whatever bytes follow it. -/
def Reads (take : Reader α) (put : α → Bytes) (item : α) : Prop :=
  ∀ rest, take (put item ++ rest) = .ok (item, rest)

theorem takeWord_word (width n : Nat) (rest : Bytes) :
    takeWord width (word width n ++ rest) = .ok (n % 256 ^ width, rest) := by
  induction width generalizing n with
  | zero => simp [word, takeWord, Nat.mod_one]
  | succ width ih =>
    have hlow : (UInt8.ofNat n).toNat = n % 256 := UInt8.toNat_ofNat'
    rw [word, List.cons_append, takeWord, ih]
    simp only [hlow, Nat.pow_succ', Nat.mod_mul]

theorem reads_id {n : Nat} (h : n < UInt64.size) : Reads takeId putId n := by
  intro rest
  have hmod : n % 256 ^ 8 = n := Nat.mod_eq_of_lt h
  rw [takeId, putId, takeWord_word, hmod]

theorem reads_kind (kind : NodeKind) : Reads takeKind putKind kind := by
  intro rest
  have hword := takeWord_word 4 (kindTag kind) rest
  rw [takeKind, putKind, hword]
  cases kind <;> rfl

theorem takeMany_flatMap {items : List α} (each : ∀ item ∈ items, Reads take put item)
    (rest : Bytes) :
    takeMany take items.length (items.flatMap put ++ rest) = .ok (items, rest) := by
  induction items with
  | nil => rfl
  | cons item items ih =>
    have hitem := each item List.mem_cons_self (items.flatMap put ++ rest)
    have hitems := ih fun other hother => each other (List.mem_cons_of_mem _ hother)
    rw [List.flatMap_cons, List.append_assoc, List.length_cons, takeMany, hitem]
    simp only [hitems]

theorem reads_list {items : List α} (each : ∀ item ∈ items, Reads take put item)
    (length : items.length < UInt64.size) : Reads (takeList take) (putList put) items := by
  intro rest
  rw [takeList, putList, List.append_assoc, reads_id length]
  exact takeMany_flatMap each rest

/-! ### Columns -/

namespace Columns

variable {c : Columns} {g : TermGraph}

theorem ofKind_kind_id (node : Node) : Node.ofKind node.kind node.id = node := by
  cases node <;> rfl

theorem zipWith_kind_id (args : List Node) :
    List.zipWith Node.ofKind (args.map Node.kind) (args.map Node.id) = args := by
  induction args with
  | nil => rfl
  | cons node args ih =>
    rw [List.map_cons, List.map_cons, List.zipWith_cons_cons, ofKind_kind_id, ih]

theorem map_zipWith_ofKind {kinds : List NodeKind} {ids : List Nat}
    (length : kinds.length = ids.length) :
    (List.zipWith Node.ofKind kinds ids).map Node.id = ids ∧
      (List.zipWith Node.ofKind kinds ids).map Node.kind = kinds := by
  induction kinds generalizing ids with
  | nil =>
    cases ids with
    | nil => exact ⟨rfl, rfl⟩
    | cons id ids => simp at length
  | cons kind kinds ih =>
    cases ids with
    | nil => simp at length
    | cons id ids =>
      obtain ⟨hids, hkinds⟩ := ih (Nat.succ.inj length)
      rw [List.zipWith_cons_cons, List.map_cons, List.map_cons, hids, hkinds]
      cases kind <;> exact ⟨rfl, rfl⟩

/-- The columns name every record: its symbol, its arity and its arguments. -/
theorem ofGraph_injective {h : TermGraph} (same : ofGraph g = ofGraph h) : g = h := by
  obtain ⟨root, records⟩ := g
  obtain ⟨root', records'⟩ := h
  simp only [ofGraph, Columns.mk.injEq] at same
  obtain ⟨rfl, hsymbols, -, hids, hkinds⟩ := same
  have hrecords : records.toList = records'.toList := by
    generalize records.toList = rs at *
    generalize records'.toList = rs' at *
    induction rs generalizing rs' with
    | nil =>
      cases rs' with
      | nil => rfl
      | cons r' rs' => simp at hsymbols
    | cons r rs ih =>
      cases rs' with
      | nil => simp at hsymbols
      | cons r' rs' =>
        simp only [List.map_cons, List.cons.injEq] at hsymbols hids hkinds
        have hargs : r.args = r'.args := by
          rw [← zipWith_kind_id r.args, hids.1, hkinds.1, zipWith_kind_id]
        have hrecord : r = r' := by
          cases r
          cases r'
          simp_all
        rw [hrecord, ih rs' hsymbols.2 hids.2 hkinds.2]
  rw [Array.toList_inj.1 hrecords]

/-- Of a record that has arguments, only the order is left to check. -/
theorem record_of_arity_pos (index : Nat) {r : Record} (args : 0 < r.arity) :
    record index r.symbol r.arity (r.args.map Node.id) (r.args.map Node.kind) =
      if r.args.any fun node => node.kind = .func && index ≤ node.id then
        .error (.notPreceding index)
      else .ok r := by
  have hconsistent : ¬(r.arity = 0 ∨ (r.args.map Node.id).length ≠ r.arity ∨
      (r.args.map Node.kind).length ≠ r.arity) := by
    simp only [List.length_map, Record.arity, ne_eq, not_true_eq_false, or_false]
    exact Nat.ne_of_gt args
  rw [record, if_neg hconsistent]
  simp only [zipWith_kind_id]

/-- A record is accepted if its columns are those of a record that has arguments and names only
records before it. -/
theorem record_eq_ok_iff {index symbol arity : Nat} {ids : List Nat} {kinds : List NodeKind}
    {r : Record} :
    record index symbol arity ids kinds = .ok r ↔
      (symbol = r.symbol ∧ arity = r.arity ∧ ids = r.args.map Node.id ∧
        kinds = r.args.map Node.kind) ∧ Vocabulary.plain.AllowsRecord index r := by
  constructor
  · intro ok
    rw [record] at ok
    split at ok
    next => cases ok
    next hconsistent =>
      simp only [not_or, Decidable.not_not] at hconsistent
      obtain ⟨hpos, hids, hkinds⟩ := hconsistent
      dsimp only at ok
      split at ok
      next => cases ok
      next hpreceding =>
        obtain rfl := Except.ok.inj ok
        obtain ⟨hmapIds, hmapKinds⟩ := map_zipWith_ofKind (hkinds.trans hids.symm)
        have harity : arity = (List.zipWith Node.ofKind kinds ids).length := by
          rw [List.length_zipWith, hkinds, hids, Nat.min_self]
        refine ⟨⟨rfl, harity, hmapIds.symm, hmapKinds.symm⟩, ?_, ?_⟩
        · show 0 < (List.zipWith Node.ofKind kinds ids).length
          omega
        · intro node hnode
          exact Vocabulary.plain_allows_iff.2 fun hafter =>
            hpreceding (List.any_eq_true.2 ⟨node, hnode, hafter⟩)
  · rintro ⟨⟨rfl, rfl, rfl, rfl⟩, hpos, hargs⟩
    have hpreceding : ¬(r.args.any fun node => node.kind = .func && index ≤ node.id) = true := by
      intro hany
      obtain ⟨node, hnode, hafter⟩ := List.any_eq_true.1 hany
      exact Vocabulary.plain_allows_iff.1 (hargs node hnode) hafter
    rw [record_of_arity_pos index hpos, if_neg hpreceding]

theorem recordsFrom_eq_ok_iff {symbols arities : List Nat} {idss : List (List Nat)}
    {kindss : List (List NodeKind)} (index : Nat) {rs : List Record}
    (lengths : arities.length = symbols.length ∧ idss.length = symbols.length ∧
      kindss.length = symbols.length) :
    recordsFrom index symbols arities idss kindss = .ok rs ↔
      (symbols = rs.map Record.symbol ∧ arities = rs.map Record.arity ∧
        idss = rs.map (·.args.map Node.id) ∧ kindss = rs.map (·.args.map Node.kind)) ∧
      ∀ (k : Nat) (r : Record), rs[k]? = some r → Vocabulary.plain.AllowsRecord (index + k) r := by
  induction symbols generalizing arities idss kindss index rs with
  | nil =>
    obtain ⟨ha, hi, hk⟩ := lengths
    obtain rfl := List.length_eq_zero_iff.1 ha
    obtain rfl := List.length_eq_zero_iff.1 hi
    obtain rfl := List.length_eq_zero_iff.1 hk
    constructor
    · intro ok
      obtain rfl := Except.ok.inj ok
      simp
    · rintro ⟨⟨hs, -⟩, -⟩
      obtain rfl := List.map_eq_nil_iff.1 hs.symm
      rfl
  | cons symbol symbols ih =>
    obtain ⟨arity, arities, rfl⟩ := List.exists_cons_of_length_eq_add_one lengths.1
    obtain ⟨ids, idss, rfl⟩ := List.exists_cons_of_length_eq_add_one lengths.2.1
    obtain ⟨kinds, kindss, rfl⟩ := List.exists_cons_of_length_eq_add_one lengths.2.2
    have lengths' : arities.length = symbols.length ∧ idss.length = symbols.length ∧
        kindss.length = symbols.length := by simpa using lengths
    rw [recordsFrom]
    constructor
    · intro ok
      obtain ⟨first, hfirst, ok⟩ := bind_eq_ok.1 ok
      obtain ⟨rest, hrest, ok⟩ := bind_eq_ok.1 ok
      obtain rfl := Except.ok.inj ok
      obtain ⟨⟨rfl, rfl, rfl, rfl⟩, hallowed⟩ := record_eq_ok_iff.1 hfirst
      obtain ⟨⟨rfl, rfl, rfl, rfl⟩, hrecords⟩ := (ih (index + 1) lengths').1 hrest
      refine ⟨⟨rfl, rfl, rfl, rfl⟩, ?_⟩
      intro k r hr
      cases k with
      | zero =>
        obtain rfl := Option.some.inj hr
        exact hallowed
      | succ k =>
        have hr' := hrecords k r hr
        rwa [Nat.add_assoc, Nat.add_comm 1] at hr'
    · rintro ⟨⟨hs, ha, hi, hk⟩, hrecords⟩
      cases rs with
      | nil => simp at hs
      | cons first rest =>
        simp only [List.map_cons, List.cons.injEq] at hs ha hi hk
        have hfirst : record index symbol arity ids kinds = .ok first :=
          record_eq_ok_iff.2 ⟨⟨hs.1, ha.1, hi.1, hk.1⟩, hrecords 0 first rfl⟩
        have hrest : recordsFrom (index + 1) symbols arities idss kindss = .ok rest := by
          refine (ih (index + 1) lengths').2 ⟨⟨hs.2, ha.2, hi.2, hk.2⟩, ?_⟩
          intro k r hr
          have hr' := hrecords (k + 1) r hr
          rwa [Nat.add_assoc, Nat.add_comm 1]
        exact bind_eq_ok.2 ⟨first, hfirst, bind_eq_ok.2 ⟨rest, hrest, rfl⟩⟩

/-- **What is accepted.** Columns give a graph if and only if they are those of a table in order in
which every record has arguments. With a leaf at the root the table is left out. -/
theorem graph_eq_ok_iff :
    c.graph = .ok g ↔
      ∃ h : TermGraph, c = .ofGraph h ∧ h.RecordsIn .plain ∧ h.IsOrdered ∧
        h.setRoot h.root = .ok g := by
  constructor
  · intro ok
    unfold graph at ok
    dsimp only at ok
    split at ok
    next => cases ok
    next hlengths =>
      split at ok
      next => cases ok
      next hroot =>
        simp only [ne_eq, not_or, Decidable.not_not] at hlengths
        obtain ⟨rs, hrs, ok⟩ := bind_eq_ok.1 ok
        obtain ⟨⟨hs, ha, hi, hk⟩, hrecords⟩ := (recordsFrom_eq_ok_iff 0 hlengths).1 hrs
        have hordered : TermGraph.RecordsIn ⟨c.root, rs.toArray⟩ .plain ∧
            TermGraph.IsOrdered ⟨c.root, rs.toArray⟩ := by
          refine TermGraph.recordsIn_and_isOrdered_iff.2 fun index r found => ?_
          have hr := hrecords index r (by simpa using found)
          rwa [Nat.zero_add] at hr
        have hallowed := Vocabulary.plain_allows_iff.2 hroot
        rw [hs, List.length_map] at hallowed
        refine ⟨⟨c.root, rs.toArray⟩, ?_, hordered.1, hordered.2, ?_⟩
        · cases c
          simp_all [ofGraph]
        · refine TermGraph.setRoot_eq_ok_iff.2 ⟨hallowed, ?_⟩
          cases hc : c.root <;> (rw [hc] at ok; exact (Except.ok.inj ok).symm)
  · rintro ⟨h, rfl, hrecords, hordered, hset⟩
    obtain ⟨hallowed, rfl⟩ := TermGraph.setRoot_eq_ok_iff.1 hset
    have hrs : recordsFrom 0 (ofGraph h).symbols (ofGraph h).arities (ofGraph h).ids
        (ofGraph h).kinds = .ok h.records.toList := by
      refine (recordsFrom_eq_ok_iff 0 (by simp [ofGraph])).2 ⟨⟨rfl, rfl, rfl, rfl⟩, ?_⟩
      intro k r found
      rw [Nat.zero_add]
      exact TermGraph.recordsIn_and_isOrdered_iff.1 ⟨hrecords, hordered⟩ k r (by simpa using found)
    have hlength : (ofGraph h).symbols.length = h.size := List.length_map _
    unfold graph
    dsimp only
    rw [if_neg (by simp [ofGraph]), if_neg (Vocabulary.plain_allows_iff.1 (hlength ▸ hallowed))]
    refine bind_eq_ok.2 ⟨_, hrs, ?_⟩
    cases hr : h.root <;> simp [ofGraph, hr, pure, Except.pure]

theorem recordsFrom_cases (index : Nat) {rs : List Record} (args : ∀ r ∈ rs, 0 < r.arity) :
    (∃ rs', recordsFrom index (rs.map Record.symbol) (rs.map Record.arity)
        (rs.map fun r => r.args.map Node.id) (rs.map fun r => r.args.map Node.kind) = .ok rs') ∨
      ∃ k, recordsFrom index (rs.map Record.symbol) (rs.map Record.arity)
        (rs.map fun r => r.args.map Node.id) (rs.map fun r => r.args.map Node.kind) =
          .error (.notPreceding k) := by
  induction rs generalizing index with
  | nil => exact .inl ⟨[], rfl⟩
  | cons r rs ih =>
    simp only [List.map_cons, recordsFrom, record_of_arity_pos index (args r List.mem_cons_self)]
    split
    next => exact .inr ⟨index, rfl⟩
    next =>
      have args' : ∀ r' ∈ rs, 0 < r'.arity := fun r' hr' => args r' (List.mem_cons_of_mem _ hr')
      rcases ih (index + 1) args' with ⟨rs', h⟩ | ⟨k, h⟩
      · exact .inl ⟨r :: rs', by rw [h]; rfl⟩
      · exact .inr ⟨k, by rw [h]; rfl⟩

/-- The columns of a well-formed graph are refused only for the order of its records. -/
theorem graph_ofGraph_cases (formed : g.IsOf .plain) :
    (∃ g', (ofGraph g).graph = .ok g') ∨ ∃ k, (ofGraph g).graph = .error (.notPreceding k) := by
  have hlength : (ofGraph g).symbols.length = g.size := List.length_map _
  unfold graph
  dsimp only
  rw [if_neg (by simp [ofGraph]), if_neg (Vocabulary.plain_allows_iff.1 (hlength ▸ formed.root))]
  have args : ∀ r ∈ g.records.toList, 0 < r.arity :=
    fun r hr => (formed.records r (Array.mem_toList_iff.1 hr)).1
  rcases recordsFrom_cases 0 args with ⟨rs, h⟩ | ⟨k, h⟩
  · refine .inl ?_
    show ∃ g', (recordsFrom 0 _ _ _ _ >>= _) = .ok g'
    simp only [ofGraph, h]
    cases g.root <;> exact ⟨_, rfl⟩
  · refine .inr ⟨k, ?_⟩
    show (recordsFrom 0 _ _ _ _ >>= _) = _
    simp only [ofGraph, h]
    rfl

end Columns

end Archive

/-! ### Graphs whose numbers fit -/

namespace TermGraph

variable {g g' : TermGraph} {bytes rest : Archive.Bytes}

/-- Every number that an archive of the graph holds fits into a word of eight bytes. -/
structure FitsWords (g : TermGraph) : Prop where
  root : g.root.id < UInt64.size
  size : g.size < UInt64.size
  symbol : ∀ r ∈ g.records, r.symbol < UInt64.size
  arity : ∀ r ∈ g.records, r.arity < UInt64.size
  arg : ∀ r ∈ g.records, ∀ node ∈ r.args, node.id < UInt64.size

instance : Decidable g.FitsWords :=
  decidable_of_iff (g.root.id < UInt64.size ∧ g.size < UInt64.size ∧
      ∀ r ∈ g.records.toList, r.symbol < UInt64.size ∧ r.arity < UInt64.size ∧
        ∀ node ∈ r.args, node.id < UInt64.size) <| by
    constructor
    · rintro ⟨root, size, records⟩
      have each (r : Record) (hr : r ∈ g.records) := records r (Array.mem_toList_iff.2 hr)
      exact ⟨root, size, fun r hr => (each r hr).1, fun r hr => (each r hr).2.1,
        fun r hr => (each r hr).2.2⟩
    · intro h
      refine ⟨h.root, h.size, fun r hr => ?_⟩
      have hr' := Array.mem_toList_iff.1 hr
      exact ⟨h.symbol r hr', h.arity r hr', h.arg r hr'⟩

open Archive in
/-- Columns whose numbers fit are read back as they were written. -/
theorem FitsWords.take_put (fits : g.FitsWords) (rest : Bytes) :
    Columns.take ((Columns.ofGraph g).put ++ rest) = .ok (.ofGraph g, rest) := by
  have hlength {β : Type} (f : Record → β) :
      (g.records.toList.map f).length < UInt64.size := by
    rw [List.length_map]
    exact fits.size
  have hmem {r : Record} (hr : r ∈ g.records.toList) : r ∈ g.records := Array.mem_toList_iff.1 hr
  have symbols : Reads (takeList takeId) (putList putId) (g.records.toList.map Record.symbol) := by
    refine reads_list ?_ (hlength _)
    intro item hitem
    obtain ⟨r, hr, rfl⟩ := List.mem_map.1 hitem
    exact reads_id (fits.symbol r (hmem hr))
  have arities : Reads (takeList takeId) (putList putId) (g.records.toList.map Record.arity) := by
    refine reads_list ?_ (hlength _)
    intro item hitem
    obtain ⟨r, hr, rfl⟩ := List.mem_map.1 hitem
    exact reads_id (fits.arity r (hmem hr))
  have ids : Reads (takeList (takeList takeId)) (putList (putList putId))
      (g.records.toList.map fun r => r.args.map Node.id) := by
    refine reads_list ?_ (hlength _)
    intro item hitem
    obtain ⟨r, hr, rfl⟩ := List.mem_map.1 hitem
    refine reads_list ?_ (by rw [List.length_map]; exact fits.arity r (hmem hr))
    intro id hid
    obtain ⟨node, hnode, rfl⟩ := List.mem_map.1 hid
    exact reads_id (fits.arg r (hmem hr) node hnode)
  have kinds : Reads (takeList (takeList takeKind)) (putList (putList putKind))
      (g.records.toList.map fun r => r.args.map Node.kind) := by
    refine reads_list ?_ (hlength _)
    intro item hitem
    obtain ⟨r, hr, rfl⟩ := List.mem_map.1 hitem
    exact reads_list (fun kind _ => reads_kind kind)
      (by rw [List.length_map]; exact fits.arity r (hmem hr))
  simp only [Columns.put, Columns.ofGraph, Columns.take, List.append_assoc, reads_id fits.root _,
    reads_kind g.root.kind _, symbols _, arities _, ids _, kinds _, bind, Except.bind, pure,
    Except.pure, Columns.ofKind_kind_id]

/-! ### Reading graphs -/

theorem load_eq_ok_iff :
    load bytes = .ok (g, rest) ↔
      ∃ h : TermGraph, Archive.Columns.take bytes = .ok (.ofGraph h, rest) ∧ h.RecordsIn .plain ∧
        h.IsOrdered ∧ h.setRoot h.root = .ok g := by
  rw [load]
  constructor
  · intro ok
    split at ok
    next columns rest' htake =>
      split at ok
      next g' hgraph =>
        obtain ⟨rfl, rfl⟩ := Prod.mk.inj (Except.ok.inj ok)
        obtain ⟨h, rfl, hh⟩ := Archive.Columns.graph_eq_ok_iff.1 hgraph
        exact ⟨h, htake, hh⟩
      next => cases ok
    next => cases ok
  · rintro ⟨h, htake, hh⟩
    rw [htake]
    simp only [Archive.Columns.graph_eq_ok_iff.2 ⟨h, rfl, hh⟩]

/-- What was read has its records in order, and no records with a leaf at the root. -/
theorem isOf_of_load (ok : load bytes = .ok (g, rest)) : g.IsOf .plain ∧ g.IsOrdered := by
  obtain ⟨h, -, hrecords, hordered, hset⟩ := load_eq_ok_iff.1 ok
  obtain ⟨hroot, rfl⟩ := setRoot_eq_ok_iff.1 hset
  cases hr : h.root with
  | free id => exact ⟨isOf_leaf _ trivial, isOrdered_leaf _⟩
  | const symbol => exact ⟨isOf_leaf _ trivial, isOrdered_leaf _⟩
  | func index =>
    rw [hr] at hroot
    exact ⟨⟨hrecords, hroot, fun hleaf => absurd rfl hleaf⟩, hordered⟩

/-- **Writing and reading back.** A graph comes back, and comes back as it was, exactly if its
records stand in order. -/
theorem load_save_iff (formed : g.IsOf .plain) (fits : g.FitsWords) (rest : Archive.Bytes)
    (result : TermGraph × Archive.Bytes) :
    load (g.save ++ rest) = .ok result ↔ g.IsOrdered ∧ result = (g, rest) := by
  have hset : g.setRoot g.root = .ok g := by
    refine setRoot_eq_ok_iff.2 ⟨formed.root, ?_⟩
    obtain ⟨root, records⟩ := g
    cases root with
    | free id => rw [show records = #[] from formed.bare nofun]
    | const symbol => rw [show records = #[] from formed.bare nofun]
    | func index => rfl
  obtain ⟨g', rest'⟩ := result
  rw [load_eq_ok_iff, save, fits.take_put]
  constructor
  · rintro ⟨h, htake, -, hordered, hset'⟩
    obtain ⟨hcolumns, rfl⟩ := Prod.mk.inj (Except.ok.inj htake)
    obtain rfl := Archive.Columns.ofGraph_injective hcolumns
    obtain rfl := Except.ok.inj (hset.symm.trans hset')
    exact ⟨hordered, rfl⟩
  · rintro ⟨hordered, heq⟩
    obtain ⟨rfl, rfl⟩ := Prod.mk.inj heq
    exact ⟨g', rfl, formed.records, hordered, hset⟩

/-- A graph that does not come back is refused for the order of its records. -/
theorem load_save_cases (formed : g.IsOf .plain) (fits : g.FitsWords) (rest : Archive.Bytes) :
    load (g.save ++ rest) = .ok (g, rest) ∨
      ∃ k, load (g.save ++ rest) = .error (.malformed (.notPreceding k)) := by
  rcases Archive.Columns.graph_ofGraph_cases formed with ⟨g', h⟩ | ⟨k, h⟩
  · have ok : load (g.save ++ rest) = .ok (g', rest) := by
      rw [load, save, fits.take_put]
      simp only [h]
    obtain ⟨-, heq⟩ := (load_save_iff formed fits rest _).1 ok
    exact .inl (ok.trans (congrArg Except.ok heq))
  · refine .inr ⟨k, ?_⟩
    rw [load, save, fits.take_put]
    simp only [h]

end TermGraph

end Equational
