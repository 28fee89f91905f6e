import Equational.Proofs.Archive

/-!
# Archives byte by byte

A reader is *exact* if it takes the written forms of the items that fit into their words, and
nothing else (`Archive.Exact`). Words, kinds and lists of exactly read items are read exactly, so
the bytes that are read are always those that would be written.

A graph is therefore read from the front of the bytes exactly if the archive of a table in order
stands there (`TermGraph.load_eq_ok_iff_save`). The bytes say everything about that table. Only a
leaf at the root leaves the records of the table behind, and what is read then has a shorter
archive.
-/

namespace Equational

namespace Archive

section Readers

variable {α : Type} {take : Reader α} {put : α → Bytes} {fits : α → Prop}

/-- The reader takes the written forms of the items that fit, and nothing else. -/
def Exact (take : Reader α) (put : α → Bytes) (fits : α → Prop) : Prop :=
  ∀ bytes item rest, take bytes = .ok (item, rest) ↔ fits item ∧ bytes = put item ++ rest

theorem Exact.of_reads (reads : ∀ item, fits item → Reads take put item)
    (writes : ∀ bytes item rest, take bytes = .ok (item, rest) →
      fits item ∧ bytes = put item ++ rest) : Exact take put fits := by
  refine fun bytes item rest => ⟨writes bytes item rest, ?_⟩
  rintro ⟨hfits, rfl⟩
  exact reads item hfits rest

/-! ### Words and kinds -/

/-- The lowest byte of a number and the others. -/
theorem word_add_mul (width : Nat) (b : UInt8) (n : Nat) :
    word (width + 1) (b.toNat + 256 * n) = b :: word width n := by
  have hlt : b.toNat < 256 := b.toNat_lt
  have hlow : UInt8.ofNat (b.toNat + 256 * n) = b := by
    refine UInt8.toNat_inj.1 ?_
    rw [UInt8.toNat_ofNat']
    omega
  have hrest : (b.toNat + 256 * n) / 256 = n := by omega
  rw [word, hlow, hrest]

theorem of_takeWord_ok {width n : Nat} {bytes rest : Bytes}
    (ok : takeWord width bytes = .ok (n, rest)) :
    n < 256 ^ width ∧ bytes = word width n ++ rest := by
  induction width generalizing bytes n with
  | zero =>
    obtain ⟨rfl, rfl⟩ := Prod.mk.inj (Except.ok.inj ok)
    exact ⟨Nat.one_pos, rfl⟩
  | succ width ih =>
    cases bytes with
    | nil => cases ok
    | cons b bytes =>
      rw [takeWord] at ok
      split at ok
      next m rest' hrest =>
        obtain ⟨rfl, rfl⟩ := Prod.mk.inj (Except.ok.inj ok)
        obtain ⟨hlt, rfl⟩ := ih hrest
        have hb : b.toNat < 256 := b.toNat_lt
        rw [word_add_mul, List.cons_append, Nat.pow_succ']
        exact ⟨by omega, rfl⟩
      next => cases ok

theorem exact_id : Exact takeId putId (· < UInt64.size) :=
  .of_reads (fun _ => reads_id) fun _ _ _ => of_takeWord_ok

theorem exact_kind : Exact takeKind putKind fun _ => True := by
  refine .of_reads (fun kind _ => reads_kind kind) fun bytes kind rest ok => ⟨trivial, ?_⟩
  rw [takeKind] at ok
  split at ok
  -- The three tags that are taken are those that are put.
  iterate 3
    next hword =>
      obtain ⟨rfl, rfl⟩ := Prod.mk.inj (Except.ok.inj ok)
      exact (of_takeWord_ok hword).2
  next => cases ok
  next => cases ok

/-! ### Lists -/

theorem Exact.of_takeMany_ok (each : Exact take put fits) {count : Nat} {bytes rest : Bytes}
    {items : List α} (ok : takeMany take count bytes = .ok (items, rest)) :
    items.length = count ∧ (∀ item ∈ items, fits item) ∧ bytes = items.flatMap put ++ rest := by
  induction count generalizing bytes items with
  | zero =>
    obtain ⟨rfl, rfl⟩ := Prod.mk.inj (Except.ok.inj ok)
    exact ⟨rfl, by simp, rfl⟩
  | succ count ih =>
    rw [takeMany] at ok
    split at ok
    next item middle hitem =>
      split at ok
      next items' rest' hitems =>
        obtain ⟨rfl, rfl⟩ := Prod.mk.inj (Except.ok.inj ok)
        obtain ⟨hfits, rfl⟩ := (each _ _ _).1 hitem
        obtain ⟨rfl, hall, rfl⟩ := ih hitems
        refine ⟨rfl, List.forall_mem_cons.2 ⟨hfits, hall⟩, ?_⟩
        rw [List.flatMap_cons, List.append_assoc]
      next => cases ok
    next => cases ok

/-- A list is read exactly if its items are. It fits if its items and its length do. -/
theorem Exact.list (each : Exact take put fits) :
    Exact (takeList take) (putList put) fun items =>
      items.length < UInt64.size ∧ ∀ item ∈ items, fits item := by
  refine .of_reads (fun items h => ?_) fun bytes items rest ok => ?_
  · refine reads_list (fun item hitem rest => ?_) h.1
    exact (each _ _ _).2 ⟨h.2 item hitem, rfl⟩
  · rw [takeList] at ok
    split at ok
    next count middle hcount =>
      obtain ⟨hlt, rfl⟩ := (exact_id _ _ _).1 hcount
      obtain ⟨rfl, hall, rfl⟩ := each.of_takeMany_ok ok
      refine ⟨⟨hlt, hall⟩, ?_⟩
      rw [putList, List.append_assoc]
    next => cases ok

end Readers

/-! ### Columns -/

namespace Columns

theorem id_ofKind (kind : NodeKind) (id : Nat) : (Node.ofKind kind id).id = id := by
  cases kind <;> rfl

theorem kind_ofKind (kind : NodeKind) (id : Nat) : (Node.ofKind kind id).kind = kind := by
  cases kind <;> rfl

/-- Every number in the columns fits into a word, and so does every length. -/
structure Fits (c : Columns) : Prop where
  root : c.root.id < UInt64.size
  symbols : c.symbols.length < UInt64.size ∧ ∀ n ∈ c.symbols, n < UInt64.size
  arities : c.arities.length < UInt64.size ∧ ∀ n ∈ c.arities, n < UInt64.size
  ids : c.ids.length < UInt64.size ∧
    ∀ ids ∈ c.ids, ids.length < UInt64.size ∧ ∀ n ∈ ids, n < UInt64.size

theorem of_take_ok {c : Columns} {bytes rest : Bytes} (ok : take bytes = .ok (c, rest)) :
    c.Fits ∧ bytes = c.put ++ rest := by
  rw [take] at ok
  obtain ⟨⟨id, bytes₁⟩, hid, ok⟩ := bind_eq_ok.1 ok
  obtain ⟨⟨kind, bytes₂⟩, hkind, ok⟩ := bind_eq_ok.1 ok
  obtain ⟨⟨symbols, bytes₃⟩, hsymbols, ok⟩ := bind_eq_ok.1 ok
  obtain ⟨⟨arities, bytes₄⟩, harities, ok⟩ := bind_eq_ok.1 ok
  obtain ⟨⟨ids, bytes₅⟩, hids, ok⟩ := bind_eq_ok.1 ok
  obtain ⟨⟨kinds, bytes₆⟩, hkinds, ok⟩ := bind_eq_ok.1 ok
  obtain ⟨rfl, rfl⟩ := Prod.mk.inj (Except.ok.inj ok)
  obtain ⟨fitsId, rfl⟩ := (exact_id _ _ _).1 hid
  obtain ⟨-, rfl⟩ := (exact_kind _ _ _).1 hkind
  obtain ⟨fitsSymbols, rfl⟩ := (exact_id.list _ _ _).1 hsymbols
  obtain ⟨fitsArities, rfl⟩ := (exact_id.list _ _ _).1 harities
  obtain ⟨fitsIds, rfl⟩ := (exact_id.list.list _ _ _).1 hids
  obtain ⟨-, rfl⟩ := (exact_kind.list.list _ _ _).1 hkinds
  refine ⟨⟨by rw [id_ofKind]; exact fitsId, fitsSymbols, fitsArities, fitsIds⟩, ?_⟩
  simp only [put, id_ofKind, kind_ofKind, List.append_assoc]

theorem Fits.fitsWords {g : TermGraph} (h : (ofGraph g).Fits) : g.FitsWords where
  root := h.root
  size := by simpa [ofGraph, TermGraph.size] using h.symbols.1
  symbol r hr := h.symbols.2 _ (List.mem_map_of_mem (Array.mem_toList_iff.2 hr))
  arity r hr := h.arities.2 _ (List.mem_map_of_mem (Array.mem_toList_iff.2 hr))
  arg r hr node hnode :=
    (h.ids.2 _ (List.mem_map_of_mem (Array.mem_toList_iff.2 hr))).2 _ (List.mem_map_of_mem hnode)

end Columns

end Archive

namespace TermGraph

variable {g t : TermGraph} {bytes rest : Archive.Bytes}

/-! ### Graphs -/

theorem take_eq_ok_iff :
    Archive.Columns.take bytes = .ok (.ofGraph t, rest) ↔
      t.FitsWords ∧ bytes = t.save ++ rest := by
  constructor
  · intro ok
    obtain ⟨fits, hbytes⟩ := Archive.Columns.of_take_ok ok
    exact ⟨fits.fitsWords, hbytes⟩
  · rintro ⟨fits, rfl⟩
    exact fits.take_put rest

/-- The graph without the records that a leaf at the root has no use for. -/
def trimmed (g : TermGraph) : TermGraph :=
  match g.root with
  | .func _ => g
  | leaf => { root := leaf }

theorem setRoot_root_eq_ok_iff :
    t.setRoot t.root = .ok g ↔ Vocabulary.plain.Allows t.size t.root ∧ g = t.trimmed := by
  rw [setRoot_eq_ok_iff, trimmed]
  cases hroot : t.root <;> simp [← hroot]

/-- **What is read.** A graph is read if and only if the archive of a well-formed table in order
stands at the front of the bytes. -/
theorem load_eq_ok_iff_save :
    load bytes = .ok (g, rest) ↔
      ∃ t : TermGraph, t.IsFormed ∧ t.FitsWords ∧ t.IsOrdered ∧ bytes = t.save ++ rest ∧
        g = t.trimmed := by
  rw [load_eq_ok_iff]
  constructor
  · rintro ⟨t, htake, records, ordered, hset⟩
    obtain ⟨fits, hbytes⟩ := take_eq_ok_iff.1 htake
    obtain ⟨root, rfl⟩ := setRoot_root_eq_ok_iff.1 hset
    exact ⟨t, isFormed_iff.2 ⟨records, root⟩, fits, ordered, hbytes, rfl⟩
  · rintro ⟨t, formed, fits, ordered, hbytes, rfl⟩
    obtain ⟨records, root⟩ := isFormed_iff.1 formed
    exact ⟨t, take_eq_ok_iff.2 ⟨fits, hbytes⟩, records, ordered,
      setRoot_root_eq_ok_iff.2 ⟨root, rfl⟩⟩

/-- Tables whose numbers fit are told apart by their archives, whatever follows these. -/
theorem FitsWords.save_inj {t' : TermGraph} {rest' : Archive.Bytes} (fits : t.FitsWords)
    (fits' : t'.FitsWords) (same : t.save ++ rest = t'.save ++ rest') : t = t' ∧ rest = rest' := by
  have htake := take_eq_ok_iff.2 ⟨fits, same.symm⟩
  rw [show t'.save = (Archive.Columns.ofGraph t').put from rfl, fits'.take_put] at htake
  obtain ⟨hcolumns, rfl⟩ := Prod.mk.inj (Except.ok.inj htake)
  exact ⟨(Archive.Columns.ofGraph_injective hcolumns).symm, rfl⟩

theorem FitsWords.trimmed (fits : t.FitsWords) : t.trimmed.FitsWords := by
  have leaf : FitsWords { root := t.root } :=
    ⟨fits.root, (by decide : 0 < UInt64.size), by simp, by simp, by simp⟩
  rw [TermGraph.trimmed]
  split
  next => exact fits
  next => exact leaf

theorem trimmed_eq_self_iff : t.trimmed = t ↔ t.root.kind = .func ∨ t.records = #[] := by
  obtain ⟨root, records⟩ := t
  cases root <;> simp [trimmed, Node.kind, eq_comm]

instance : Decidable t.IsFormed :=
  decidable_of_iff (t.holds t.root = true ∧
      ∀ r ∈ t.records.toList, 0 < r.arity ∧ ∀ node ∈ r.args, t.holds node = true) <| by
    constructor
    · rintro ⟨root, records⟩
      have each (r : Record) (hr : r ∈ t.records) := records r (Array.mem_toList_iff.2 hr)
      exact ⟨root, fun r hr => (each r hr).1, fun r hr => (each r hr).2⟩
    · intro h
      refine ⟨h.root, fun r hr => ?_⟩
      have hr' := Array.mem_toList_iff.1 hr
      exact ⟨h.arity r hr', h.args r hr'⟩

instance : Decidable t.IsOrdered :=
  decidable_of_iff (∀ entry ∈ t.records.toList.zipIdx, ∀ node ∈ entry.1.args,
      node.kind = .func → node.id < entry.2) <| by
    simp only [List.mem_zipIdx_iff_getElem?, Array.getElem?_toList, Prod.forall]
    constructor
    · intro h index r found j hj
      exact h r index found _ hj rfl
    · intro h r index found node hnode hkind
      cases node with
      | func j => exact h index r found j hnode
      | free id => cases hkind
      | const symbol => cases hkind

/-- **Archives and tables.** Take a well-formed table whose numbers fit into their words. Its
archive, with any bytes after it, is read if and only if every argument of every record, within
reach of the root or not, names an earlier record; exactly the archive is then taken from the
bytes, and the table comes back, without its records if the root is a leaf. Conversely, whatever
bytes a graph is read from are the archive of such a table and the bytes that are left, and writing
the graph gives this archive, unless the root is a leaf and the table has records. -/
theorem archives_are_exact :
    (∀ t : TermGraph, t.IsFormed → t.FitsWords → ∀ rest,
      ((∃ result, load (t.save ++ rest) = .ok result) ↔ t.IsOrdered) ∧
        (t.IsOrdered → load (t.save ++ rest) = .ok (t.trimmed, rest))) ∧
      ∀ bytes g rest, load bytes = .ok (g, rest) → ∃ t : TermGraph,
        t.IsFormed ∧ t.FitsWords ∧ t.IsOrdered ∧ bytes = t.save ++ rest ∧ g = t.trimmed ∧
          (g.save = t.save ↔ t.root.kind = .func ∨ t.records = #[]) := by
  refine ⟨fun t formed fits rest => ?_, fun bytes g rest ok => ?_⟩
  · have reads (ordered : t.IsOrdered) : load (t.save ++ rest) = .ok (t.trimmed, rest) :=
      load_eq_ok_iff_save.2 ⟨t, formed, fits, ordered, rfl, rfl⟩
    refine ⟨⟨?_, fun ordered => ⟨_, reads ordered⟩⟩, reads⟩
    rintro ⟨⟨g, rest'⟩, ok⟩
    obtain ⟨t', -, fits', ordered, same, -⟩ := load_eq_ok_iff_save.1 ok
    obtain ⟨rfl, -⟩ := fits.save_inj fits' same
    exact ordered
  · obtain ⟨t, formed, fits, ordered, hbytes, rfl⟩ := load_eq_ok_iff_save.1 ok
    refine ⟨t, formed, fits, ordered, hbytes, rfl, ?_⟩
    rw [← trimmed_eq_self_iff]
    refine ⟨fun same => ?_, fun same => congrArg save same⟩
    have same' : t.trimmed.save ++ [] = t.save ++ [] := congrArg (· ++ []) same
    exact (fits.trimmed.save_inj fits same').1

/-- A table that uses a record twice and has one out of reach of the root, the same table with a
leaf at the root, and a table with a record before its argument. -/
theorem archives_are_exact_shared :
    load (save ⟨.func 1, #[⟨1, [.free 7]⟩, ⟨0, [.func 0, .func 0]⟩, ⟨1, [.func 1]⟩]⟩ ++ [5]) =
        .ok (⟨.func 1, #[⟨1, [.free 7]⟩, ⟨0, [.func 0, .func 0]⟩, ⟨1, [.func 1]⟩]⟩, [5]) ∧
      load (save ⟨.free 3, #[⟨1, [.free 7]⟩, ⟨0, [.func 0, .func 0]⟩]⟩ ++ [5]) =
        .ok (⟨.free 3, #[]⟩, [5]) ∧
      (¬∃ result, load (save ⟨.func 0, #[⟨1, [.func 1]⟩, ⟨1, [.free 7]⟩]⟩ ++ [5]) = .ok result) ∧
      ∃ t : TermGraph, save ⟨.free 3, #[⟨1, [.free 7]⟩, ⟨0, [.func 0, .func 0]⟩]⟩ ++ [5] =
          t.save ++ [5] ∧ ⟨.free 3, #[]⟩ = t.trimmed ∧
        (save ⟨.free 3, #[]⟩ = t.save ↔ t.root.kind = .func ∨ t.records = #[]) := by
  obtain ⟨reads, writes⟩ := archives_are_exact
  have shared := (reads ⟨.func 1, #[⟨1, [.free 7]⟩, ⟨0, [.func 0, .func 0]⟩, ⟨1, [.func 1]⟩]⟩
    (by decide) (by decide) [5]).2 (by decide)
  have leaf := (reads ⟨.free 3, #[⟨1, [.free 7]⟩, ⟨0, [.func 0, .func 0]⟩]⟩
    (by decide) (by decide) [5]).2 (by decide)
  have unordered := (reads ⟨.func 0, #[⟨1, [.func 1]⟩, ⟨1, [.free 7]⟩]⟩
    (by decide) (by decide) [5]).1
  refine ⟨shared, leaf, fun ok => absurd (unordered.1 ok) (by decide), ?_⟩
  obtain ⟨t, -, -, -, hbytes, hgraph, hsame⟩ := writes _ _ _ leaf
  exact ⟨t, hbytes, hgraph, hsame⟩

end TermGraph

end Equational
