import Equational.Proofs.Occurrence
import Equational.Proofs.Simultaneity

/-!
# Forests

A table is a *forest* if every node stores a term and no record is reached from a node in two ways,
within reach of the root or not (`TermGraph.IsForest`). A change of one argument slot is seen at the
end of every way that leads to the slot (`Stores.redirect`), and a node without such a way stores
what it did (`Redirects.stores`); in a forest there is at most one.

Records are only ever added for one slot that is to hold them, so all operations on graphs give
forests from forests. What is put into a slot is a copy that nothing else reaches
(`IsForest.plant`), and the arguments of a new record reach copies that no two of them share
(`Unshared.push`).
-/

namespace Equational

/-- Every step of a path goes down at least one level. -/
theorem Term.HasAt.levels_le {t u : Term} {path : List Nat} (h : t.HasAt path u) :
    u.levels + path.length ≤ t.levels := by
  induction h with
  | root t => exact Nat.le_refl _
  | @arg symbol i args t u path nth below ih =>
    have hle := Term.levels_le_levelsArgs (List.mem_of_getElem? nth)
    rw [Term.levels, List.length_cons]
    omega

namespace TermGraph

variable {g g' g'' other : TermGraph} {a b c node new : Node} {t u : Term}
  {path path' : List Nat} {index slot : Nat} {r : Record}

/-! ### Ways -/

/-- The argument slots on a way lead from one node down to another. -/
inductive Leads (g : TermGraph) : Node → List Nat → Node → Prop
  | here (node : Node) : Leads g node [] node
  | down {index i : Nat} {r : Record} {arg node : Node} {path : List Nat}
      (found : g.records[index]? = some r) (nth : r.args[i]? = some arg)
      (rest : Leads g arg path node) : Leads g (.func index) (i :: path) node

theorem Leads.append (first : g.Leads a path b) (second : g.Leads b path' c) :
    g.Leads a (path ++ path') c := by
  induction first with
  | here node => exact second
  | down found nth _ ih => exact .down found nth (ih second)

theorem Leads.unique (h : g.Leads a path b) (h' : g.Leads a path c) : b = c := by
  induction h with
  | here node =>
    cases h'
    rfl
  | down found nth _ ih =>
    cases h' with
    | down found' nth' rest' =>
      obtain rfl := Option.some.inj (found.symm.trans found')
      obtain rfl := Option.some.inj (nth.symm.trans nth')
      exact ih rest'

theorem Leads.mono (h : g.Leads a path b) (kept : g.KeepsFrom 0 g') : g'.Leads a path b := by
  induction h with
  | here node => exact .here node
  | down found nth _ ih => exact .down (kept _ _ (Nat.zero_le _) found) nth ih

theorem holds_iff : g.holds node = true ↔ ∀ index, node = .func index → index < g.size := by
  cases node <;> simp [holds]

theorem holds_of_found (found : g.records[index]? = some r) : g.holds (.func index) = true :=
  decide_eq_true (Array.getElem?_eq_some_iff.1 found).1

theorem holds_of_kept (held : g.holds node = true) (kept : g.KeepsFrom 0 g') :
    g'.holds node = true := by
  rw [holds_iff] at held ⊢
  intro index hnode
  exact Nat.lt_of_lt_of_le (held index hnode) kept.size_le

theorem Stores.holds (h : g.Stores node t) : g.holds node = true := by
  cases h with
  | free id => rfl
  | const symbol => rfl
  | func found _ => exact holds_of_found found

/-- What a record with a known argument stores, taken apart. -/
theorem Stores.arg (h : g.Stores (.func index) t) (found : g.records[index]? = some r) {i : Nat}
    (nth : r.args[i]? = some node) :
    ∃ ts u, t = .app r.symbol ts ∧ List.Forall₂ g.Stores r.args ts ∧ ts[i]? = some u ∧
      g.Stores node u := by
  cases h with
  | @func _ r' term found' args =>
    obtain rfl := Option.some.inj (found.symm.trans found')
    refine ⟨r.args.map term, term node, rfl, ?_, ?_, args node (List.mem_of_getElem? nth)⟩
    · exact List.forall₂_map_right_iff.2 (List.forall₂_same.2 args)
    · rw [List.getElem?_map, nth]
      rfl

theorem Stores.leads (h : g.Stores a t) (way : g.Leads a path b) :
    ∃ u, g.Stores b u ∧ t.HasAt path u := by
  induction way generalizing t with
  | here node => exact ⟨t, h, .root t⟩
  | down found nth _ ih =>
    obtain ⟨ts, u, rfl, -, hu, hstores⟩ := h.arg found nth
    obtain ⟨v, hv, hat⟩ := ih hstores
    exact ⟨v, hv, .arg hu hat⟩

theorem Leads.lt_size (way : g.Leads a path (.func index)) (h : g.Stores a t) : index < g.size := by
  obtain ⟨u, hu, -⟩ := h.leads way
  exact of_decide_eq_true hu.holds

theorem Leads.of_kept (way : g'.Leads a path b) (h : g.Stores a t) (kept : g.KeepsFrom 0 g') :
    g.Leads a path b := by
  induction way generalizing t with
  | here node => exact .here node
  | down found nth _ ih =>
    obtain ⟨r, -, found', -, -⟩ := stores_func_iff.1 h
    obtain rfl := Option.some.inj (found.symm.trans (kept _ _ (Nat.zero_le _) found'))
    obtain ⟨-, u, -, -, -, hu⟩ := h.arg found' nth
    exact .down found' nth (ih hu)

theorem Leads.of_copy {n : Nat} (way : g.Leads (a.offset n) path b) (h : other.Stores a t)
    (copied : ∀ (index : Nat) (r : Record), other.records[index]? = some r →
      g.records[index + n]? = some (r.offset n)) :
    ∃ b₀, b = b₀.offset n ∧ other.Leads a path b₀ := by
  generalize hstart : a.offset n = start at way
  induction way generalizing a t with
  | here node => exact ⟨a, hstart.symm, .here a⟩
  | @down index i r arg node path found nth _ ih =>
    cases a with
    | free id => cases hstart
    | const symbol => cases hstart
    | func index₀ =>
      obtain rfl := Node.func.inj hstart
      obtain ⟨r₀, -, found₀, -, -⟩ := stores_func_iff.1 h
      obtain rfl := Option.some.inj (found.symm.trans (copied index₀ r₀ found₀))
      rw [Record.offset, List.getElem?_map] at nth
      obtain ⟨arg₀, nth₀, rfl⟩ := Option.map_eq_some_iff.1 nth
      obtain ⟨-, u, -, -, -, hu⟩ := h.arg found₀ nth₀
      obtain ⟨b₀, rfl, rest₀⟩ := ih hu rfl
      exact ⟨b₀, rfl, .down found₀ nth₀ rest₀⟩

/-! ### One slot changed -/

/-- The other table has a new node in one argument slot, and is the same everywhere else. -/
structure Redirects (g : TermGraph) (index slot : Nat) (new : Node) (g' : TermGraph) : Prop where
  changed : ∃ r, g.records[index]? = some r ∧
    g'.records[index]? = some ⟨r.symbol, r.args.set slot new⟩
  others : ∀ j, j ≠ index → g'.records[j]? = g.records[j]?

/-- A way in the changed table is an old one, or it goes through the slot. -/
theorem Redirects.leads_cases (h : Redirects g index slot new g') (way : g'.Leads a path b) :
    g.Leads a path b ∨ ∃ above below, path = above ++ slot :: below ∧
      g.Leads a above (.func index) ∧ g'.Leads new below b := by
  induction way with
  | here node => exact .inl (.here node)
  | @down m i r arg node path found nth rest ih =>
    have goOn : ∀ r₀, g.records[m]? = some r₀ → r₀.args[i]? = some arg →
        g.Leads (.func m) (i :: path) node ∨ ∃ above below, i :: path = above ++ slot :: below ∧
          g.Leads (.func m) above (.func index) ∧ g'.Leads new below node := by
      intro r₀ found₀ nth₀
      rcases ih with hold | ⟨above, below, rfl, hto, hfrom⟩
      · exact .inl (.down found₀ nth₀ hold)
      · exact .inr ⟨i :: above, below, rfl, .down found₀ nth₀ hto, hfrom⟩
    by_cases hm : m = index
    · subst hm
      obtain ⟨r₀, found₀, found'⟩ := h.changed
      obtain rfl := Option.some.inj (found.symm.trans found')
      by_cases hi : i = slot
      · subst hi
        have hlt : i < (r₀.args.set i new).length := (List.getElem?_eq_some_iff.1 nth).1
        rw [List.length_set] at hlt
        obtain rfl : new = arg := by
          rw [List.getElem?_set_self hlt] at nth
          exact Option.some.inj nth
        exact .inr ⟨[], path, rfl, .here _, rest⟩
      · rw [List.getElem?_set_ne (Ne.symm hi)] at nth
        exact goOn r₀ found₀ nth
    · rw [h.others m hm] at found
      exact goOn r found nth

theorem Redirects.holds (h : Redirects g index slot new g') (held : g'.holds node = true) :
    g.holds node = true := by
  rw [holds_iff] at held ⊢
  intro j hnode
  have found' := Array.getElem?_eq_getElem (held j hnode)
  by_cases hj : j = index
  · subst hj
    obtain ⟨r, found, -⟩ := h.changed
    exact (Array.getElem?_eq_some_iff.1 found).1
  · rw [h.others j hj] at found'
    exact (Array.getElem?_eq_some_iff.1 found').1

/-- **What does not lead to the slot stays as it is.** -/
theorem Redirects.stores (h : Redirects g index slot new g') (stored : g.Stores a t)
    (apart : ∀ path, ¬g.Leads a path (.func index)) : g'.Stores a t := by
  induction stored with
  | free id => exact .free id
  | const symbol => exact .const symbol
  | @func m r term found _ ih =>
    have hm : m ≠ index := by
      rintro rfl
      exact apart [] (.here _)
    refine .func (by rw [h.others m hm]; exact found) fun arg harg => ih arg harg fun path way => ?_
    obtain ⟨i, nth⟩ := List.mem_iff_getElem?.1 harg
    exact apart (i :: path) (.down found nth way)

theorem Redirects.exists_stores (h : Redirects g index slot new g') (stored : g.Stores a t)
    (stores : ∃ u, g'.Stores new u) : ∃ t, g'.Stores a t := by
  induction stored with
  | free id => exact ⟨_, .free id⟩
  | const symbol => exact ⟨_, .const symbol⟩
  | @func m r term found _ ih =>
    have hrecord : ∃ r', g'.records[m]? = some r' ∧ ∀ arg ∈ r'.args, arg = new ∨ arg ∈ r.args := by
      by_cases hm : m = index
      · subst hm
        obtain ⟨r₀, found₀, found'⟩ := h.changed
        obtain rfl := Option.some.inj (found.symm.trans found₀)
        exact ⟨_, found', fun arg harg => (List.mem_or_eq_of_mem_set harg).symm⟩
      · exact ⟨r, by rw [h.others m hm]; exact found, fun arg harg => .inr harg⟩
    obtain ⟨r', found', hargs⟩ := hrecord
    have heach : ∀ arg ∈ r'.args, ∃ t, g'.Stores arg t := by
      intro arg harg
      rcases hargs arg harg with rfl | hold
      · exact stores
      · exact ih arg hold
    choose! term' hterm' using heach
    exact ⟨_, .func found' hterm'⟩

theorem Leads.exists_func (way : g.Leads a path (.func index)) : ∃ j, a = .func j := by
  cases way with
  | here => exact ⟨index, rfl⟩
  | @down j => exact ⟨j, rfl⟩

/-- A way that leads from a node back to it goes nowhere. -/
theorem Stores.eq_nil_of_leads (h : g.Stores a t) (way : g.Leads a path a) : path = [] := by
  obtain ⟨u, hu, hat⟩ := h.leads way
  have hle := hat.levels_le
  rw [← hu.termAt_eq, h.termAt_eq] at hle
  exact List.length_eq_zero_iff.1 (by omega)

/-- The path leads to the record and ends with the slot. -/
def EndsIn (g : TermGraph) (a : Node) (index slot : Nat) (path : List Nat) : Prop :=
  ∃ above, path = above ++ [slot] ∧ g.Leads a above (.func index)

theorem endsIn_down_iff {m i : Nat} (found : g.records[m]? = some r) (nth : r.args[i]? = some a) :
    g.EndsIn (.func m) index slot (i :: path) ↔
      m = index ∧ i = slot ∧ path = [] ∨ g.EndsIn a index slot path := by
  constructor
  · rintro ⟨above, hpath, way⟩
    cases way with
    | here =>
      obtain ⟨rfl, rfl⟩ := List.cons.inj hpath
      exact .inl ⟨rfl, rfl, rfl⟩
    | down found' nth' rest =>
      obtain ⟨rfl, rfl⟩ := List.cons.inj hpath
      obtain rfl := Option.some.inj (found.symm.trans found')
      obtain rfl := Option.some.inj (nth.symm.trans nth')
      exact .inr ⟨_, rfl, rest⟩
  · rintro (⟨rfl, rfl, rfl⟩ | ⟨above, rfl, way⟩)
    · exact ⟨[], rfl, .here _⟩
    · exact ⟨i :: above, rfl, .down found nth way⟩

theorem EndsIn.exists_func (h : g.EndsIn a index slot path) : ∃ j, a = .func j := by
  obtain ⟨above, -, way⟩ := h
  exact way.exists_func

theorem EndsIn.ne_nil (h : g.EndsIn a index slot path) : path ≠ [] := by
  obtain ⟨above, rfl, -⟩ := h
  simp

theorem eq_nil_of_leaf {paths : List (List Nat)} (leaf : ∀ j, a ≠ .func j)
    (through : ∀ path ∈ paths, g.EndsIn a index slot path) : paths = [] := by
  apply List.eq_nil_iff_forall_not_mem.2
  intro path hpath
  obtain ⟨j, hj⟩ := (through path hpath).exists_func
  exact leaf j hj

/-- The record with a new node in the slot, if it is the one that changes. -/
theorem Redirects.found (h : Redirects g index slot new g') {m : Nat}
    (found : g.records[m]? = some r) :
    ∃ args, g'.records[m]? = some ⟨r.symbol, args⟩ ∧ args.length = r.args.length ∧
      ∀ i arg, r.args[i]? = some arg →
        args[i]? = some (if m = index ∧ i = slot then new else arg) := by
  by_cases hm : m = index
  · subst hm
    obtain ⟨r₀, found₀, found'⟩ := h.changed
    obtain rfl := Option.some.inj (found.symm.trans found₀)
    refine ⟨_, found', List.length_set, fun i arg nth => ?_⟩
    by_cases hi : i = slot
    · subst hi
      simp [(List.getElem?_eq_some_iff.1 nth).1]
    · simp [hi, Ne.symm hi, nth]
  · refine ⟨r.args, by rw [h.others m hm]; exact found, rfl, fun i arg nth => ?_⟩
    simp [hm, nth]

theorem stores_func_of_nth {symbol m : Nat} {args : List Node} {ts : List Term}
    (found : g.records[m]? = some ⟨symbol, args⟩) (length : args.length = ts.length)
    (each : ∀ (i : Nat) (arg : Node) (t : Term), args[i]? = some arg → ts[i]? = some t →
      g.Stores arg t) :
    g.Stores (.func m) (.app symbol ts) := by
  refine stores_func_iff.2 ⟨_, _, found, rfl, List.forall₂_iff_get.2 ⟨length, fun i hi hi' => ?_⟩⟩
  exact each i _ _ (List.getElem?_eq_getElem hi) (List.getElem?_eq_getElem hi')

/-- What becomes of the `i`-th argument of a record when a slot changes. -/
theorem Stores.redirect_arg {m i : Nat} {arg : Node} (stored : g.Stores (.func m) t)
    (found : g.records[m]? = some r) (nth : r.args[i]? = some arg) (placed : g'.Stores new u)
    {paths : List (List Nat)} (nodup : paths.Nodup)
    (through : ∀ path, path ∈ paths ↔ g.EndsIn (.func m) index slot (i :: path)) {v : Term}
    (below : (∀ path, path ∈ paths ↔ g.EndsIn arg index slot path) →
      g'.Stores arg (v.replaceAll paths u)) :
    g'.Stores (if m = index ∧ i = slot then new else arg) (v.replaceAll paths u) := by
  have split (path : List Nat) := (through path).trans (endsIn_down_iff found nth)
  by_cases here : m = index ∧ i = slot
  · -- The argument is in the slot, and no way leads from it to the slot again.
    obtain ⟨rfl, rfl⟩ := here
    have only (path : List Nat) : path ∈ paths ↔ path = [] := by
      rw [split]
      constructor
      · rintro (⟨-, -, hpath⟩ | ⟨above, -, way⟩)
        · exact hpath
        · cases stored.eq_nil_of_leads (.down found nth way)
      · exact fun hpath => .inl ⟨rfl, rfl, hpath⟩
    rw [if_pos ⟨rfl, rfl⟩, Term.eq_singleton_of_nodup nodup only]
    exact placed
  · rw [if_neg here]
    apply below
    intro path
    rw [split]
    constructor
    · rintro (⟨hm, hi, -⟩ | h)
      · exact absurd ⟨hm, hi⟩ here
      · exact h
    · exact .inr

/-- **A slot is seen at the end of every way through it.** Putting a new node into a slot replaces
the subterms at the ends of these ways, and nothing else. -/
theorem Stores.redirect (stored : g.Stores a t) (redirects : Redirects g index slot new g')
    (placed : g'.Stores new u) {paths : List (List Nat)} (nodup : paths.Nodup)
    (through : ∀ path, path ∈ paths ↔ g.EndsIn a index slot path) :
    g'.Stores a (t.replaceAll paths u) := by
  induction stored generalizing paths with
  | free id =>
    rw [eq_nil_of_leaf (by simp) fun path hpath => (through path).1 hpath]
    exact .free id
  | const symbol =>
    rw [eq_nil_of_leaf (by simp) fun path hpath => (through path).1 hpath]
    exact .const symbol
  | @func m r term found args ih =>
    have proper : [] ∉ paths := fun hnil => ((through []).1 hnil).ne_nil rfl
    obtain ⟨args', found', hlength, hargs⟩ := redirects.found found
    rw [Term.replaceAll_app proper]
    apply stores_func_of_nth found' (by simp [hlength])
    intro i arg' t' hi hi'
    rw [List.getElem?_mapIdx, List.getElem?_map] at hi'
    simp only [Option.map_map, Option.map_eq_some_iff, Function.comp_apply] at hi'
    obtain ⟨arg, nth, rfl⟩ := hi'
    obtain rfl := Option.some.inj ((hargs i arg nth).symm.trans hi)
    have nodup' : (paths.filterMap (Term.tailBelow i)).Nodup := by
      refine nodup.filterMap fun path path' rest hpath hpath' => ?_
      rw [Term.tailBelow_eq_some.1 hpath, Term.tailBelow_eq_some.1 hpath']
    refine Stores.redirect_arg (.func found args) found nth placed nodup' (fun path => ?_) ?_
    · rw [← through, List.mem_filterMap]
      simp [Term.tailBelow_eq_some]
    · exact ih arg (List.mem_of_getElem? nth) nodup'

/-! ### Forests -/

/-- Every node stores a term, and reaches no record in two ways. -/
structure IsForest (g : TermGraph) : Prop where
  stores : ∀ node, g.holds node = true → ∃ t, g.Stores node t
  unique : ∀ {node : Node} {path path' : List Nat} {index : Nat},
    g.Leads node path (.func index) → g.Leads node path' (.func index) → path = path'

theorem IsForest.of_records (h : g.IsForest) (same : g'.records = g.records) : g'.IsForest := by
  have hkept : g.KeepsFrom 0 g' := fun _ _ _ found => by rw [same]; exact found
  have hkept' : g'.KeepsFrom 0 g := fun _ _ _ found => by rw [← same]; exact found
  refine ⟨fun node held => ?_, fun way way' => h.unique (way.mono hkept') (way'.mono hkept')⟩
  obtain ⟨t, ht⟩ := h.stores node (holds_of_kept held hkept')
  exact ⟨t, ht.mono hkept⟩

/-- A slot can be given a node that reaches nothing of what reaches the slot. -/
theorem IsForest.redirect (h : g.IsForest) (redirects : Redirects g index slot new g')
    (held : g.holds new = true)
    (apart : ∀ a path path' below j, g.Leads a path (.func index) → g.Leads a path' (.func j) →
      ¬g.Leads new below (.func j)) : g'.IsForest := by
  have avoids : ∀ path, ¬g.Leads new path (.func index) := fun path way =>
    apart (.func index) [] [] path index (.here _) (.here _) way
  have fromNew : ∀ {below b}, g'.Leads new below b → g.Leads new below b := by
    intro below b way
    rcases redirects.leads_cases way with hold | ⟨above, -, -, hto, -⟩
    · exact hold
    · exact absurd hto (avoids above)
  constructor
  · intro node held'
    obtain ⟨t, ht⟩ := h.stores node (redirects.holds held')
    obtain ⟨u, hu⟩ := h.stores new held
    exact redirects.exists_stores ht ⟨u, redirects.stores hu avoids⟩
  · intro node path path' j way way'
    rcases redirects.leads_cases way with hold | ⟨above, below, rfl, hto, hfrom⟩ <;>
      rcases redirects.leads_cases way' with hold' | ⟨above', below', rfl, hto', hfrom'⟩
    · exact h.unique hold hold'
    · exact absurd (fromNew hfrom') (apart node above' path below' j hto' hold)
    · exact absurd (fromNew hfrom) (apart node above path' below j hto hold')
    · rw [h.unique hto hto', h.unique (fromNew hfrom) (fromNew hfrom')]

/-- A forest that has the root. -/
structure IsTree (g : TermGraph) : Prop where
  forest : g.IsForest
  root : g.holds g.root = true

theorem IsTree.stores_term (h : g.IsTree) : g.Stores g.root g.term := by
  obtain ⟨t, ht⟩ := h.forest.stores g.root h.root
  rw [term, ht.termAt_eq]
  exact ht

/-! ### Growing tables -/

/-- Only nodes that the table has need to be looked at. -/
theorem IsForest.of_held (stores : ∀ node, g.holds node = true → ∃ t, g.Stores node t)
    (unique : ∀ {node : Node} {path path' : List Nat} {index : Nat}, g.holds node = true →
      g.Leads node path (.func index) → g.Leads node path' (.func index) → path = path') :
    g.IsForest := by
  refine ⟨stores, fun {node path path' index} way way' => ?_⟩
  by_cases held : g.holds node = true
  · exact unique held way way'
  · have hnil : ∀ {path b}, g.Leads node path b → path = [] := by
      intro path b way
      cases way with
      | here => rfl
      | down found => exact absurd (holds_of_found found) held
    rw [hnil way, hnil way']

theorem isForest_of_isEmpty (empty : g.records = #[]) : g.IsForest := by
  have hnone : ∀ index, g.holds (.func index) ≠ true := by
    intro index held
    have hlt : index < g.records.size := of_decide_eq_true held
    simp [empty] at hlt
  refine .of_held (fun node held => ?_) fun {node _ _ _} held way _ => ?_
  · cases node with
    | free id => exact ⟨_, .free id⟩
    | const symbol => exact ⟨_, .const symbol⟩
    | func index => exact absurd held (hnone index)
  · obtain ⟨j, rfl⟩ := way.exists_func
    exact absurd held (hnone j)

theorem IsForest.leads_of_kept (h : g.IsForest) (held : g.holds a = true) (kept : g.KeepsFrom 0 g')
    (way : g'.Leads a path b) : g.Leads a path b := by
  obtain ⟨t, ht⟩ := h.stores a held
  exact way.of_kept ht kept

theorem IsForest.lt_size (h : g.IsForest) (held : g.holds a = true)
    (way : g.Leads a path (.func index)) : index < g.size := by
  obtain ⟨t, ht⟩ := h.stores a held
  exact way.lt_size ht

/-- Nodes for the arguments of one record, in a table that has grown by what they need. They reach
none of the records there were, and no two of them reach the same one. -/
structure Unshared (g : TermGraph) (result : List Node × TermGraph) : Prop where
  kept : g.KeepsFrom 0 result.2
  forest : result.2.IsForest
  held : ∀ node ∈ result.1, result.2.holds node = true
  fresh : ∀ node ∈ result.1, ∀ path index, result.2.Leads node path (.func index) → g.size ≤ index
  apart : result.1.Pairwise fun a b => ∀ path path' index,
    result.2.Leads a path (.func index) → ¬result.2.Leads b path' (.func index)

theorem IsForest.unshared_nil (h : g.IsForest) : Unshared g ([], g) :=
  ⟨.refl g 0, h, by simp, by simp, .nil⟩

theorem IsForest.unshared_leaf (h : g.IsForest) (leaf : ∀ index, node ≠ .func index) :
    Unshared g ([node], g) := by
  refine ⟨.refl g 0, h, ?_, ?_, List.pairwise_singleton _ _⟩
  · intro node' hnode'
    obtain rfl := List.mem_singleton.1 hnode'
    exact holds_iff.2 fun index hnode => absurd hnode (leaf index)
  · intro node' hnode' path index way
    obtain rfl := List.mem_singleton.1 hnode'
    obtain ⟨j, rfl⟩ := way.exists_func
    exact absurd rfl (leaf j)

/-- What one argument needs is added after what the others need. -/
theorem Unshared.cons {nodes : List Node} (first : Unshared g ([node], g'))
    (rest : Unshared g' (nodes, g'')) : Unshared g (node :: nodes, g'') := by
  have held : g'.holds node = true := first.held node List.mem_cons_self
  have back : ∀ {path b}, g''.Leads node path b → g'.Leads node path b :=
    first.forest.leads_of_kept held rest.kept
  refine ⟨first.kept.trans rest.kept, rest.forest, ?_, ?_, List.pairwise_cons.2 ⟨?_, rest.apart⟩⟩
  · exact List.forall_mem_cons.2 ⟨holds_of_kept held rest.kept, rest.held⟩
  · refine List.forall_mem_cons.2 ⟨fun path index way => ?_, fun node' hnode' path index way => ?_⟩
    · exact first.fresh node List.mem_cons_self path index (back way)
    · exact Nat.le_trans first.kept.size_le (rest.fresh node' hnode' path index way)
  · intro node' hnode' path path' index way way'
    have hlt : index < g'.size := first.forest.lt_size held (back way)
    exact absurd (rest.fresh node' hnode' path' index way') (Nat.not_le.2 hlt)

theorem keepsFrom_push (pushed : g'.records = g.records.push r) : g.KeepsFrom 0 g' := by
  intro index r' _ found
  obtain ⟨hlt, rfl⟩ := Array.getElem?_eq_some_iff.1 found
  rw [pushed]
  exact Array.getElem?_push_lt hlt

theorem holds_push_cases (pushed : g'.records = g.records.push r) (held : g'.holds node = true) :
    g.holds node = true ∨ node = .func g.size := by
  cases node with
  | free id => exact .inl rfl
  | const symbol => exact .inl rfl
  | func index =>
    have hlt : index < g'.records.size := of_decide_eq_true held
    rw [pushed, Array.size_push] at hlt
    rcases Nat.lt_or_eq_of_le (Nat.le_of_lt_succ hlt) with hlt | rfl
    · exact .inl (decide_eq_true hlt)
    · exact .inr rfl

section Push

variable {nodes : List Node} {symbol : Nat}

/-- A way from a new record goes through one of its arguments, and on in the table there was. -/
theorem Unshared.leads_push (h : Unshared g (nodes, g'))
    (pushed : g''.records = g'.records.push ⟨symbol, nodes⟩)
    (way : g''.Leads (.func g'.size) path b) :
    path = [] ∧ b = .func g'.size ∨
      ∃ i arg rest, path = i :: rest ∧ nodes[i]? = some arg ∧ g'.Leads arg rest b := by
  cases way with
  | here => exact .inl ⟨rfl, rfl⟩
  | @down _ i r arg _ path found nth rest =>
    rw [pushed, show g'.size = g'.records.size from rfl, Array.getElem?_push_size] at found
    obtain rfl := Option.some.inj found
    have held := h.held arg (List.mem_of_getElem? nth)
    exact .inr ⟨i, arg, path, rfl, nth, h.forest.leads_of_kept held (keepsFrom_push pushed) rest⟩

theorem Unshared.isForest_push (h : Unshared g (nodes, g'))
    (pushed : g''.records = g'.records.push ⟨symbol, nodes⟩) : g''.IsForest := by
  have hkept := keepsFrom_push pushed
  refine .of_held (fun node held => ?_) fun {node path path' index} held way way' => ?_
  · have hstores : ∀ node, g'.holds node = true → ∃ t, g''.Stores node t := by
      intro node held
      obtain ⟨t, ht⟩ := h.forest.stores node held
      exact ⟨t, ht.mono hkept⟩
    rcases holds_push_cases pushed held with held | rfl
    · exact hstores node held
    · have heach : ∀ arg ∈ nodes, ∃ t, g''.Stores arg t := fun arg harg =>
        hstores arg (h.held arg harg)
      choose! term hterm using heach
      exact ⟨_, .func (r := ⟨symbol, nodes⟩) (by rw [pushed]; exact Array.getElem?_push_size) hterm⟩
  · rcases holds_push_cases pushed held with held | rfl
    · exact h.forest.unique (h.forest.leads_of_kept held hkept way)
        (h.forest.leads_of_kept held hkept way')
    · have hbelow : ∀ {i : Nat} {arg rest}, nodes[i]? = some arg →
          ¬g'.Leads arg rest (.func g'.size) := fun nth way =>
        absurd (h.forest.lt_size (h.held _ (List.mem_of_getElem? nth)) way) (Nat.lt_irrefl _)
      rcases h.leads_push pushed way with ⟨rfl, htarget⟩ | ⟨i, arg, rest, rfl, nth, hrest⟩ <;>
        rcases h.leads_push pushed way' with ⟨rfl, htarget'⟩ | ⟨i', arg', rest', rfl, nth', hrest'⟩
      · rfl
      · exact absurd (htarget ▸ hrest') (hbelow nth')
      · exact absurd (htarget' ▸ hrest) (hbelow nth)
      · have hapart := List.pairwise_iff_getElem.1 h.apart
        obtain ⟨hi, rfl⟩ := List.getElem?_eq_some_iff.1 nth
        obtain ⟨hi', rfl⟩ := List.getElem?_eq_some_iff.1 nth'
        rcases Nat.lt_trichotomy i i' with hlt | rfl | hlt
        · exact absurd hrest' (hapart i i' hi hi' hlt rest rest' index hrest)
        · rw [h.forest.unique hrest hrest']
        · exact absurd hrest (hapart i' i hi' hi hlt rest' rest index hrest')

/-- A new record that holds unshared nodes. -/
theorem Unshared.push (h : Unshared g (nodes, g'))
    (pushed : g''.records = g'.records.push ⟨symbol, nodes⟩) :
    Unshared g ([.func g'.size], g'') := by
  refine ⟨h.kept.trans (keepsFrom_push pushed), h.isForest_push pushed, ?_, ?_,
    List.pairwise_singleton _ _⟩
  · intro node hnode
    obtain rfl := List.mem_singleton.1 hnode
    refine decide_eq_true ?_
    show g'.size < g''.records.size
    rw [pushed, Array.size_push]
    exact Nat.lt_succ_self _
  · intro node hnode path index way
    obtain rfl := List.mem_singleton.1 hnode
    rcases h.leads_push pushed way with ⟨-, htarget⟩ | ⟨i, arg, rest, -, nth, hrest⟩
    · rw [Node.func.inj htarget]
      exact h.kept.size_le
    · exact h.fresh arg (List.mem_of_getElem? nth) rest index hrest

end Push

/-! #### Laying out a term -/

theorem unshared_layOutArgs {ts : List Term}
    (each : ∀ t ∈ ts, ∀ g : TermGraph, g.IsForest →
      Unshared g ([(layOut t g.records).1], ⟨g.root, (layOut t g.records).2⟩))
    (h : g.IsForest) :
    Unshared g ((layOutArgs ts g.records).1, ⟨g.root, (layOutArgs ts g.records).2⟩) := by
  induction ts generalizing g with
  | nil => exact h.unshared_nil
  | cons t ts ih =>
    have first := each t List.mem_cons_self g h
    exact first.cons (ih (fun t' ht' => each t' (List.mem_cons_of_mem _ ht')) first.forest)

theorem unshared_layOut (t : Term) (h : g.IsForest) :
    Unshared g ([(layOut t g.records).1], ⟨g.root, (layOut t g.records).2⟩) := by
  induction t generalizing g with
  | var id => exact h.unshared_leaf (by simp [layOut])
  | const symbol => exact h.unshared_leaf (by simp [layOut])
  | app symbol args ih =>
    rw [layOut]
    exact (unshared_layOutArgs (fun t ht g h => ih t ht h) h).push rfl

theorem isForest_ofTerm (t : Term) : (ofTerm t).IsForest :=
  (unshared_layOut t (isForest_of_isEmpty (g := .empty) rfl)).forest.of_records rfl

/-! #### Copies -/

/-- A node of the table after a copy was one before, or is the copy of one. -/
theorem holds_absorb_cases (held : (g.absorb other).2.holds node = true) :
    g.holds node = true ∨ ∃ index node₀, other.root = .func index ∧ other.holds node₀ = true ∧
      node = node₀.offset g.size := by
  cases node with
  | free id => exact .inl rfl
  | const symbol => exact .inl rfl
  | func j =>
    by_cases root : ∃ index, other.root = .func index
    · obtain ⟨index, root⟩ := root
      rw [absorb_of_func root] at held
      have hlt : j < (g.records ++ other.records.map (Record.offset g.size)).size :=
        of_decide_eq_true held
      rw [Array.size_append, Array.size_map] at hlt
      by_cases hj : j < g.size
      · exact .inl (decide_eq_true hj)
      · have hle : g.size ≤ j := Nat.not_lt.1 hj
        refine .inr ⟨index, .func (j - g.size), root, decide_eq_true ?_, ?_⟩
        · exact Nat.sub_lt_left_of_lt_add hle hlt
        · rw [Node.offset, Nat.sub_add_cancel hle]
    · rw [absorb_of_leaf (not_exists.1 root)] at held
      exact .inl held

/-- A copy reaches copies only. -/
theorem IsForest.leads_copy (hother : other.IsForest) (root : other.root = .func index)
    (held : other.holds a = true) {j : Nat}
    (way : (g.absorb other).2.Leads (a.offset g.size) path (.func j)) :
    ∃ j₀, j = j₀ + g.size ∧ other.Leads a path (.func j₀) := by
  obtain ⟨t, ht⟩ := hother.stores a held
  obtain ⟨b, hb, way₀⟩ := way.of_copy ht fun j r found => getElem?_absorb root found
  cases b with
  | free id => cases hb
  | const symbol => cases hb
  | func j₀ => exact ⟨j₀, Node.func.inj hb, way₀⟩

theorem IsForest.absorb (h : g.IsForest) (hother : other.IsForest) :
    (g.absorb other).2.IsForest := by
  have hkept := keepsFrom_absorb g other
  refine .of_held (fun node held => ?_) fun {node path path' j} held way way' => ?_
  · rcases holds_absorb_cases held with held | ⟨index, node₀, root, held₀, rfl⟩
    · obtain ⟨t, ht⟩ := h.stores node held
      exact ⟨t, ht.mono hkept⟩
    · obtain ⟨t, ht⟩ := hother.stores node₀ held₀
      exact ⟨t, ht.offset fun j r found => getElem?_absorb root found⟩
  · rcases holds_absorb_cases held with held | ⟨index, node₀, root, held₀, rfl⟩
    · exact h.unique (h.leads_of_kept held hkept way) (h.leads_of_kept held hkept way')
    · obtain ⟨j₀, rfl, way₀⟩ := hother.leads_copy root held₀ way
      obtain ⟨j₁, hj, way₁⟩ := hother.leads_copy root held₀ way'
      obtain rfl := Nat.add_right_cancel hj
      exact hother.unique way₀ way₁

/-- The copy of a graph shares nothing with the table it is copied to. -/
theorem IsForest.unshared_absorb (h : g.IsForest) (hother : other.IsTree) :
    Unshared g ([(g.absorb other).1], (g.absorb other).2) := by
  by_cases root : ∃ index, other.root = .func index
  · obtain ⟨index, root⟩ := root
    have hnode : (g.absorb other).1 = other.root.offset g.size := by rw [absorb_of_func root]
    refine ⟨keepsFrom_absorb g other, h.absorb hother.forest, ?_, ?_, List.pairwise_singleton _ _⟩
    · intro node hmem
      obtain rfl := List.mem_singleton.1 hmem
      rw [hnode]
      exact (hother.stores_term.offset fun j r found => getElem?_absorb root found).holds
    · intro node hmem path j way
      obtain rfl := List.mem_singleton.1 hmem
      rw [hnode] at way
      obtain ⟨j₀, rfl, -⟩ := hother.forest.leads_copy root hother.root way
      exact Nat.le_add_left _ _
  · rw [absorb_of_leaf (not_exists.1 root)]
    exact h.unshared_leaf (not_exists.1 root)

/-! ### Editing a forest -/

/-- The table with another record in the place of one. -/
def setRecord (g : TermGraph) (index : Nat) (r : Record) : TermGraph :=
  { g with records := g.records.setIfInBounds index r }

theorem size_setRecord (g : TermGraph) (index : Nat) (r : Record) :
    (g.setRecord index r).size = g.size :=
  Array.size_setIfInBounds

theorem getElem?_setRecord_self (lt : index < g.size) (r : Record) :
    (g.setRecord index r).records[index]? = some r :=
  Array.getElem?_setIfInBounds_self_of_lt lt

theorem setRecord_setRecord (g : TermGraph) (index : Nat) (r r' : Record) :
    (g.setRecord index r).setRecord index r' = g.setRecord index r' := by
  rw [setRecord, setRecord, setRecord, Array.setIfInBounds_setIfInBounds]

theorem setRecord_eq_self (found : g.records[index]? = some r) : g.setRecord index r = g := by
  obtain ⟨hlt, rfl⟩ := Array.getElem?_eq_some_iff.1 found
  rw [setRecord, Array.setIfInBounds_def, dif_pos hlt, Array.set_getElem_self]

/-- A copy goes to the end of the table, whatever the records before it are. -/
theorem absorb_setRecord (lt : index < g.size) (r : Record) (other : TermGraph) :
    (g.setRecord index r).absorb other =
      ((g.absorb other).1, (g.absorb other).2.setRecord index r) := by
  rw [absorb, absorb, size_setRecord]
  split
  · rw [setRecord, setRecord, Array.setIfInBounds_append_left lt]
  · rfl

theorem redirects_setRecord (found : g.records[index]? = some r) (slot : Nat) (new : Node) :
    Redirects g index slot new (g.setRecord index ⟨r.symbol, r.args.set slot new⟩) where
  changed := ⟨r, found, getElem?_setRecord_self (Array.getElem?_eq_some_iff.1 found).1 _⟩
  others _ hne := Array.getElem?_setIfInBounds_ne hne.symm

/-- What reaches a record that was there before a copy was there itself. -/
theorem IsForest.holds_of_leads_absorb (hother : other.IsForest)
    (way : (g.absorb other).2.Leads a path (.func index)) (lt : index < g.size) :
    g.holds a = true := by
  have held : (g.absorb other).2.holds a = true := by
    cases way with
    | here => exact decide_eq_true (Nat.lt_of_lt_of_le lt (keepsFrom_absorb g other).size_le)
    | down found => exact holds_of_found found
  rcases holds_absorb_cases held with held | ⟨_, a₀, root, held₀, rfl⟩
  · exact held
  · obtain ⟨j₀, rfl, -⟩ := hother.leads_copy root held₀ way
    exact absurd (Nat.le_add_left g.size j₀) (Nat.not_le.2 lt)

/-- **A slot is given a copy of its own**, so the table stays a forest. -/
theorem IsForest.plant (h : g.IsForest) (hother : other.IsTree)
    (found : g.records[index]? = some r) (slot : Nat) :
    ((g.absorb other).2.setRecord index
      ⟨r.symbol, r.args.set slot (g.absorb other).1⟩).IsForest := by
  have unshared := h.unshared_absorb hother
  have found' := unshared.kept index r (Nat.zero_le _) found
  refine unshared.forest.redirect (redirects_setRecord found' slot _)
    (unshared.held _ List.mem_cons_self) ?_
  -- What reaches the slot was there before the copy, and reaches nothing of the copy.
  intro a path path' below j way way' wayNew
  have hfresh : g.size ≤ j := unshared.fresh _ List.mem_cons_self below j wayNew
  have held := hother.forest.holds_of_leads_absorb way (Array.getElem?_eq_some_iff.1 found).1
  have hlt := h.lt_size held (h.leads_of_kept held unshared.kept way')
  exact absurd hfresh (Nat.not_le.2 hlt)

theorem setArg_eq_ok_iff :
    g.setArg index slot node = .ok g' ↔
      ∃ r, g.records[index]? = some r ∧ slot < r.args.length ∧ g.holds node = true ∧
        g' = g.setRecord index ⟨r.symbol, r.args.set slot node⟩ := by
  constructor
  · intro ok
    rw [setArg] at ok
    split at ok
    next => cases ok
    next r found =>
      split at ok
      next => cases ok
      next hle =>
        split at ok
        next => cases ok
        next held =>
          exact ⟨r, found, Nat.not_le.1 hle, by simpa using held, (Except.ok.inj ok).symm⟩
  · rintro ⟨r, found, hlt, held, rfl⟩
    have hle : ¬r.arity ≤ slot := Nat.not_le.2 hlt
    simp only [setArg, found, hle, held, if_false, Bool.not_true, Bool.false_eq_true, setRecord]

theorem IsForest.replaceArg (h : g.IsForest) (hother : other.IsTree) (lt : index < g.size)
    (ok : g.replaceArg index slot other = .ok g') : g'.IsForest := by
  have found := Array.getElem?_eq_getElem lt
  have ok : (g.absorb other).2.setArg index slot (g.absorb other).1 = .ok g' := ok
  obtain ⟨r, found', -, -, rfl⟩ := setArg_eq_ok_iff.1 ok
  rw [keepsFrom_absorb g other index _ (Nat.zero_le _) found] at found'
  obtain rfl := Option.some.inj found'
  exact h.plant hother found slot

section Fill

variable {image : Nat → Option TermGraph}

/-- The arguments of a record are filled in one after the other, and the table is a forest after
each of them. -/
theorem IsForest.fillArgs
    (images : ∀ id other, image id = some other → other.IsTree)
    {symbol : Nat} {ready args : List Node} (lt : index < g.size)
    (h : (g.setRecord index ⟨symbol, ready ++ args⟩).IsForest) :
    ((fillArgs image args g).2.setRecord index
      ⟨symbol, ready ++ (fillArgs image args g).1⟩).IsForest := by
  induction args generalizing g ready with
  | nil => exact h
  | cons arg args ih =>
    have keep : ((TermGraph.fillArgs image args g).2.setRecord index
        ⟨symbol, ready ++ arg :: (TermGraph.fillArgs image args g).1⟩).IsForest := by
      rw [List.append_cons] at h ⊢
      exact ih lt h
    cases arg with
    | const symbol => exact keep
    | func index => exact keep
    | free id =>
      rw [TermGraph.fillArgs]
      split
      next other has =>
        have hplant := h.plant (images id other has) (getElem?_setRecord_self lt _) ready.length
        simp only [absorb_setRecord lt, setRecord_setRecord, Nat.le_refl, List.set_append_right,
          Nat.sub_self, List.set_cons_zero] at hplant
        rw [List.append_cons] at hplant ⊢
        exact ih (Nat.lt_of_lt_of_le lt (keepsFrom_absorb g other).size_le) hplant
      next => exact keep

theorem IsForest.fillRecords
    (images : ∀ id other, image id = some other → other.IsTree)
    (count first : Nat) (h : g.IsForest) : (fillRecords image count first g).IsForest := by
  induction count generalizing g first with
  | zero => exact h
  | succ count ih =>
    rw [TermGraph.fillRecords]
    split
    next => exact h
    next r found =>
      have hlt := (Array.getElem?_eq_some_iff.1 found).1
      have hself : (g.setRecord first ⟨r.symbol, [] ++ r.args⟩).IsForest := by
        rw [List.nil_append, setRecord_eq_self found]
        exact h
      exact ih (first + 1) (IsForest.fillArgs images hlt hself)

theorem IsForest.compacted (h : g.IsForest) : g.compacted.IsForest := by
  rw [TermGraph.compacted]
  split
  · exact isForest_ofTerm g.term
  · exact h

theorem IsForest.fill (images : ∀ id other, image id = some other → other.IsTree)
    (h : g.IsForest) : (g.fill image).IsForest :=
  h.fillRecords images g.size 0

end Fill

theorem IsForest.viewAt (h : g.IsForest) (ok : g.viewAt node = .ok g') : g'.IsForest := by
  cases node with
  | free id =>
    obtain rfl := Except.ok.inj ok
    exact isForest_of_isEmpty rfl
  | const symbol =>
    obtain rfl := Except.ok.inj ok
    exact isForest_of_isEmpty rfl
  | func index =>
    rw [TermGraph.viewAt, setRoot] at ok
    split at ok
    next =>
      obtain rfl := Except.ok.inj ok
      exact h.of_records rfl
    next => cases ok

section Relabel

variable {label : Nat → Option Node}

theorem eq_func_of_relabelNode (leaves : ∀ id leaf, label id = some leaf → leaf.kind ≠ .func)
    (h : relabelNode label node = .func index) : node = .func index := by
  cases node with
  | const symbol => exact h
  | func index => exact h
  | free id =>
    rw [relabelNode] at h
    cases hlabel : label id with
    | none => simp [hlabel] at h
    | some leaf =>
      rw [hlabel, Option.getD_some] at h
      exact absurd (by rw [h]; rfl) (leaves id leaf hlabel)

theorem Leads.of_relabel (leaves : ∀ id leaf, label id = some leaf → leaf.kind ≠ .func)
    (records : g'.records = g.records.map fun r => ⟨r.symbol, r.args.map (relabelNode label)⟩)
    (way : g'.Leads (relabelNode label a) path (.func index)) : g.Leads a path (.func index) := by
  generalize hstart : relabelNode label a = start at way
  generalize htarget : Node.func index = target at way
  induction way generalizing a with
  | here _ =>
    subst htarget
    rw [eq_func_of_relabelNode leaves hstart]
    exact .here _
  | @down j i r arg target path found nth _ ih =>
    subst htarget
    obtain rfl := eq_func_of_relabelNode leaves hstart
    rw [records, Array.getElem?_map] at found
    obtain ⟨r₀, found₀, rfl⟩ := Option.map_eq_some_iff.1 found
    rw [List.getElem?_map] at nth
    obtain ⟨arg₀, nth₀, rfl⟩ := Option.map_eq_some_iff.1 nth
    exact .down found₀ nth₀ (ih rfl rfl)

theorem exists_leaf_terms (leaves : ∀ id leaf, label id = some leaf → leaf.kind ≠ .func) :
    ∃ σ : Nat → Term, ∀ id, (∃ leaf, label id = some leaf ∧ Stores { root := leaf } leaf (σ id)) ∨
      label id = none ∧ σ id = .var id := by
  have heach : ∀ id, ∃ u, (∃ leaf, label id = some leaf ∧ Stores { root := leaf } leaf u) ∨
      label id = none ∧ u = .var id := by
    intro id
    cases hlabel : label id with
    | none => exact ⟨_, .inr ⟨rfl, rfl⟩⟩
    | some leaf =>
      cases leaf with
      | free other => exact ⟨_, .inl ⟨_, rfl, .free other⟩⟩
      | const symbol => exact ⟨_, .inl ⟨_, rfl, .const symbol⟩⟩
      | func index => exact absurd rfl (leaves id _ hlabel)
  choose σ hσ using heach
  exact ⟨σ, hσ⟩

theorem IsForest.relabel (h : g.IsForest)
    (leaves : ∀ id leaf, label id = some leaf → leaf.kind ≠ .func) :
    (g.relabel label).IsForest := by
  rw [TermGraph.relabel]
  split
  next =>
    split
    · exact isForest_of_isEmpty rfl
    · exact h
  next root _ =>
    obtain ⟨σ, hσ⟩ := exists_leaf_terms leaves
    refine .of_held (fun node held => ?_) fun {node _ _ _} _ way way' => ?_
    · cases node with
      | free id => exact ⟨_, .free id⟩
      | const symbol => exact ⟨_, .const symbol⟩
      | func index =>
        have hlt : index < g.size := by
          have hlt := of_decide_eq_true held
          rwa [size, Array.size_map] at hlt
        obtain ⟨t, ht⟩ := h.stores (.func index) (decide_eq_true hlt)
        refine ⟨_, ht.relabel leaves (fun j r found => ?_) fun id _ => hσ id⟩
        rw [Array.getElem?_map, found]
        rfl
    · obtain ⟨j, rfl⟩ := way.exists_func
      exact h.unique (Leads.of_relabel (a := .func j) leaves rfl way)
        (Leads.of_relabel (a := .func j) leaves rfl way')

end Relabel

end TermGraph

end Equational
