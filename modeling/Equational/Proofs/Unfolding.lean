import Equational.Proofs.Storage
import Mathlib.Data.Finset.Card
import Mathlib.Data.List.Forall2
import Mathlib.Order.Interval.Finset.Nat

/-!
# Graphs without circles

Records may be shared, stand in any order and lie out of reach. All the same a node stores a term if
no record that is reached from it is reached from itself, and unfolding to the depth of the table
finds that term (`Stores.termAt_eq`). The terms that are met on the way down have fewer and fewer
levels, so no record is met twice, and there are as many records at least as there are levels.
-/

namespace Equational

namespace Term

mutual
/-- The number of applications on the longest way from the root to a leaf. -/
def levels : Term → Nat
  | .var _ | .const _ => 0
  | .app _ args => 1 + levelsArgs args
/-- The greatest number of levels in a list of terms. -/
def levelsArgs : List Term → Nat
  | [] => 0
  | t :: ts => max t.levels (levelsArgs ts)
end

theorem succ_le_levelsArgs_iff {n : Nat} {ts : List Term} :
    n + 1 ≤ levelsArgs ts ↔ ∃ t ∈ ts, n + 1 ≤ t.levels := by
  induction ts with
  | nil => simp [levelsArgs]
  | cons t ts ih => simp [levelsArgs, ih]

theorem levels_le_levelsArgs {t : Term} {ts : List Term} (h : t ∈ ts) :
    t.levels ≤ levelsArgs ts := by
  cases hlevels : t.levels with
  | zero => exact Nat.zero_le _
  | succ n => exact succ_le_levelsArgs_iff.2 ⟨t, h, hlevels.ge⟩

end Term

namespace TermGraph

variable {g g' g'' : TermGraph} {node : Node} {t : Term} {index : Nat} {r : Record}

/-! ### What a node stores -/

/-- The records from number `low` on are in the other table too. -/
def KeepsFrom (g : TermGraph) (low : Nat) (g' : TermGraph) : Prop :=
  ∀ (index : Nat) (r : Record), low ≤ index → g.records[index]? = some r →
    g'.records[index]? = some r

theorem KeepsFrom.refl (g : TermGraph) (low : Nat) : g.KeepsFrom low g := fun _ _ _ found => found

theorem KeepsFrom.trans {low : Nat} (h : g.KeepsFrom low g') (h' : g'.KeepsFrom low g'') :
    g.KeepsFrom low g'' :=
  fun index r le found => h' index r le (h index r le found)

theorem KeepsFrom.size_le (h : g.KeepsFrom 0 g') : g.size ≤ g'.size := by
  by_contra hlt
  have hlt : g'.size < g.records.size := Nat.lt_of_not_le hlt
  have found := h _ _ (Nat.zero_le _) (Array.getElem?_eq_getElem hlt)
  exact Nat.lt_irrefl _ (Array.getElem?_eq_some_iff.1 found).1

theorem Stores.mono (h : g.Stores node t) (kept : g.KeepsFrom 0 g') : g'.Stores node t := by
  induction h with
  | free id => exact .free id
  | const symbol => exact .const symbol
  | func found _ ih => exact .func (kept _ _ (Nat.zero_le _) found) ih

theorem Stores.of_leaf (h : g.Stores node t) (leaf : ∀ index, node ≠ .func index) :
    g'.Stores node t := by
  cases h with
  | free id => exact .free id
  | const symbol => exact .const symbol
  | func => exact absurd rfl (leaf _)

theorem Stores.unfold_eq (h : g.Stores node t) {depth : Nat} (deep : t.levels ≤ depth) :
    g.unfold depth node = t := by
  induction h generalizing depth with
  | free id => simp
  | const symbol => simp
  | @func index r term found _ ih =>
    rw [Term.levels] at deep
    obtain ⟨depth, rfl⟩ : ∃ d, depth = d + 1 := ⟨depth - 1, by omega⟩
    have hargs : r.args.map (g.unfold depth) = r.args.map term := by
      refine List.map_congr_left fun arg harg => ih arg harg ?_
      have hle := Term.levels_le_levelsArgs (List.mem_map_of_mem (f := term) harg)
      omega
    rw [unfold, found, ← hargs]

/-- A record for every number of levels is met on the way down. -/
theorem Stores.exists_levels (h : g.Stores node t) {n : Nat} (le : n + 1 ≤ t.levels) :
    ∃ index u, index < g.size ∧ g.Stores (.func index) u ∧ u.levels = n + 1 := by
  induction h with
  | free id => simp [Term.levels] at le
  | const symbol => simp [Term.levels] at le
  | @func index r term found args ih =>
    by_cases heq : (Term.app r.symbol (r.args.map term)).levels = n + 1
    · exact ⟨index, _, (Array.getElem?_eq_some_iff.1 found).1, .func found args, heq⟩
    · rw [Term.levels] at le heq
      have hbelow : n + 1 ≤ Term.levelsArgs (r.args.map term) := by omega
      obtain ⟨u, hu, hle⟩ := Term.succ_le_levelsArgs_iff.1 hbelow
      obtain ⟨arg, harg, rfl⟩ := List.mem_map.1 hu
      exact ih arg harg hle

theorem Stores.levels_le_size (h : g.Stores node t) : t.levels ≤ g.size := by
  -- Records whose terms have different numbers of levels are different records.
  let levelsOf (index : Nat) : Nat := (g.unfold t.levels (.func index)).levels
  have hsurj : Set.SurjOn levelsOf (Finset.range g.size) (Finset.Icc 1 t.levels) := by
    intro n hn
    obtain ⟨hpos, hle⟩ := Finset.mem_Icc.1 hn
    obtain ⟨n, rfl⟩ : ∃ m, n = m + 1 := ⟨n - 1, by omega⟩
    obtain ⟨index, u, hlt, hu, hlevels⟩ := h.exists_levels hle
    refine ⟨index, Finset.mem_coe.2 (Finset.mem_range.2 hlt), ?_⟩
    show (g.unfold t.levels (.func index)).levels = n + 1
    rw [hu.unfold_eq (hlevels ▸ hle), hlevels]
  have hcard := Finset.card_le_card_of_surjOn levelsOf hsurj
  rwa [Nat.card_Icc, Finset.card_range, Nat.add_sub_cancel] at hcard

/-- **Unfolding finds what is stored**, in whatever order the records stand. -/
theorem Stores.termAt_eq (h : g.Stores node t) : g.termAt node = t := h.unfold_eq h.levels_le_size

theorem terms_eq_of_forall₂ {args : List Node} {ts : List Term}
    (h : List.Forall₂ g.Stores args ts) :
    (∀ arg ∈ args, g.Stores arg (g.termAt arg)) ∧ ts = args.map g.termAt := by
  induction h with
  | nil => exact ⟨nofun, rfl⟩
  | cons first _ ih =>
    obtain ⟨hrest, rfl⟩ := ih
    rw [List.map_cons, first.termAt_eq]
    refine ⟨List.forall_mem_cons.2 ⟨?_, hrest⟩, rfl⟩
    rw [first.termAt_eq]
    exact first

theorem stores_func_iff :
    g.Stores (.func index) t ↔ ∃ r ts, g.records[index]? = some r ∧ t = .app r.symbol ts ∧
      List.Forall₂ g.Stores r.args ts := by
  constructor
  · intro h
    cases h with
    | @func _ r term found args =>
      exact ⟨r, _, found, rfl, List.forall₂_map_right_iff.2 (List.forall₂_same.2 args)⟩
  · rintro ⟨r, ts, found, rfl, args⟩
    obtain ⟨hargs, rfl⟩ := terms_eq_of_forall₂ args
    exact .func found hargs

/-! ### No circles -/

/-- All records that are named exist, and none that is reached from the root is reached from
itself. -/
structure IsAcyclic (g : TermGraph) : Prop where
  root : g.holds g.root = true
  args : ∀ r ∈ g.records, ∀ node ∈ r.args, g.holds node = true
  ends : ∀ index, g.root = .func index → Acc g.Refers index

theorem exists_stores (args : ∀ r ∈ g.records, ∀ node ∈ r.args, g.holds node = true)
    (held : g.holds node = true) (ends : ∀ index, node = .func index → Acc g.Refers index) :
    ∃ t, g.Stores node t := by
  cases node with
  | free id => exact ⟨_, .free id⟩
  | const symbol => exact ⟨_, .const symbol⟩
  | func index =>
    have hacc := ends index rfl
    clear ends
    induction hacc with
    | intro index _ ih =>
      have hlt : index < g.records.size := of_decide_eq_true held
      have found := Array.getElem?_eq_getElem hlt
      have hargs : ∀ arg ∈ g.records[index].args, ∃ t, g.Stores arg t := by
        intro arg harg
        cases arg with
        | free id => exact ⟨_, .free id⟩
        | const symbol => exact ⟨_, .const symbol⟩
        | func j => exact ih j ⟨_, found, harg⟩ (args _ (Array.mem_of_getElem? found) _ harg)
      choose! term hterm using hargs
      exact ⟨_, .func found hterm⟩

theorem IsAcyclic.stores_term (h : g.IsAcyclic) : g.Stores g.root g.term := by
  obtain ⟨t, ht⟩ := exists_stores h.args h.root h.ends
  rw [term, ht.termAt_eq]
  exact ht

theorem Stores.acc (h : g.Stores (.func index) t) : Acc g.Refers index := by
  generalize hnode : Node.func index = node at h
  induction h generalizing index with
  | free id => cases hnode
  | const symbol => cases hnode
  | func found _ ih =>
    cases hnode
    refine ⟨_, fun j hj => ?_⟩
    obtain ⟨r, found', hj⟩ := hj
    cases found.symm.trans found'
    exact ih _ hj rfl

theorem Stores.isAcyclic (h : g.Stores g.root t)
    (args : ∀ r ∈ g.records, ∀ node ∈ r.args, g.holds node = true) : g.IsAcyclic := by
  refine ⟨?_, args, fun index hroot => ?_⟩
  · cases hroot : g.root with
    | free id => rfl
    | const symbol => rfl
    | func index =>
      obtain ⟨r, -, found, -⟩ := stores_func_iff.1 (hroot ▸ h)
      exact decide_eq_true (Array.getElem?_eq_some_iff.1 found).1
  · rw [hroot] at h
    exact h.acc

end TermGraph

/-! ### Stored terms with shared and with superfluous records -/

/-- Two function symbols, one of them with two arguments. -/
def Context.paired : Context :=
  { name := "paired", signature := ⟨[⟨"f", 2⟩, ⟨"g", 1⟩]⟩, label := 0 }

namespace Expression

/-- A pattern `f(x, x)` with a record that is out of reach. -/
def twice : Expression :=
  .ofGraph .paired { root := .func 1, records := #[⟨1, [.free 7]⟩, ⟨0, [.free 0, .free 0]⟩] }

/-- A target `f(g(x), g(x))` with one record for both arguments, after the record that has them. -/
def doubled : Expression :=
  .ofGraph .paired { root := .func 0, records := #[⟨0, [.func 1, .func 1]⟩, ⟨1, [.free 0]⟩] }

/-- The term `f(x, y)`, where the variables are the first and the last one of all. -/
def apart : Expression :=
  .ofGraph .paired
    { root := .func 0, records := #[⟨0, [.free 0, .free 18446744073709551615]⟩] }

theorem isAcyclic_twice : twice.graph.IsAcyclic := by
  have hroot : twice.graph.Stores (.func 1) (.app 0 [.var 0, .var 0]) :=
    TermGraph.stores_func_iff.2 ⟨_, _, rfl, rfl, .cons (.free 0) (.cons (.free 0) .nil)⟩
  exact hroot.isAcyclic (by decide)

theorem isAcyclic_doubled : doubled.graph.IsAcyclic := by
  have hpart : doubled.graph.Stores (.func 1) (.app 1 [.var 0]) :=
    TermGraph.stores_func_iff.2 ⟨_, _, rfl, rfl, .cons (.free 0) .nil⟩
  have hroot : doubled.graph.Stores (.func 0) (.app 0 [.app 1 [.var 0], .app 1 [.var 0]]) :=
    TermGraph.stores_func_iff.2 ⟨_, _, rfl, rfl, .cons hpart (.cons hpart .nil)⟩
  exact hroot.isAcyclic (by decide)

theorem isAcyclic_apart : apart.graph.IsAcyclic := by
  have hroot : apart.graph.Stores (.func 0) (.app 0 [.var 0, .var 18446744073709551615]) :=
    TermGraph.stores_func_iff.2 ⟨_, _, rfl, rfl, .cons (.free 0) (.cons (.free _) .nil)⟩
  exact hroot.isAcyclic (by decide)

end Expression

end Equational
