import Equational.Proofs.Loading
import Equational.Proofs.Locality

/-!
# Replacing in tables that share records

What is read from an archive is in order and within the signature, but a record may be in several
slots. A position names a slot, so replacing what is there replaces the subterms at the ends of all
paths through the slot (`Expression.pathsIn`). None of these paths goes on from another, and the
new subterm is at the end of each. So replacing touches one occurrence at every position exactly if
no record within reach of the root is in two slots (`TermGraph.HasOwnSlots`), which reading does not
check.
-/

namespace Equational

namespace Term

/-- Replacing at several paths is not replacing at one of them, as two terms tell already. -/
theorem eq_singleton_of_replaceAll {t v w : Term} {path : List Nat} {paths : List (List Nat)}
    (present : ∀ p ∈ paths, ∃ u, t.HasAt p u) (nodup : paths.Nodup) (apart : paths.Pairwise Apart)
    (hpath : path ∈ paths) (hne : v ≠ w) (hv : t.replaceAll paths v = t.replaceAt path v)
    (hw : t.replaceAll paths w = t.replaceAt path w) : paths = [path] := by
  refine eq_singleton_of_nodup nodup fun other => ⟨fun hother => ?_, fun h => h ▸ hpath⟩
  by_contra hdiffer
  have : Std.Symm Apart := ⟨fun _ _ h => h.symm⟩
  have happart : Apart path other := apart.forall hpath hother (Ne.symm hdiffer)
  obtain ⟨u, hu⟩ := present path hpath
  have stays {new : Term} (hnew : t.replaceAll paths new = t.replaceAt path new) :
      t.HasAt other new := by
    have hat := hasAt_replaceAll new present apart hother
    rw [hnew] at hat
    exact (hu.hasAt_replaceAt_iff new happart.1 happart.2).1 hat
  exact hne ((stays hv).unique (stays hw))

end Term

namespace TermGraph

variable {g : TermGraph} {a c : Node} {t : Term} {path path' : List Nat} {index i j : Nat}

/-! ### Ways through a slot -/

theorem Leads.exists_between (way : g.Leads a (path ++ path') c) :
    ∃ b, g.Leads a path b ∧ g.Leads b path' c := by
  induction path generalizing a with
  | nil => exact ⟨a, .here a, way⟩
  | cons i path ih =>
    cases way with
    | down found nth rest =>
      obtain ⟨b, first, second⟩ := ih rest
      exact ⟨b, .down found nth first, second⟩

/-- A path through a slot does not come back to the slot. -/
theorem Stores.eq_of_endsIn (stored : g.Stores a t) (h : g.EndsIn a index i path)
    (h' : g.EndsIn a index i path') (goesOn : path <+: path') : path = path' := by
  obtain ⟨above, rfl, way⟩ := h
  obtain ⟨above', rfl, way'⟩ := h'
  obtain ⟨rest, hrest⟩ := goesOn
  rcases rest.eq_nil_or_concat' with rfl | ⟨middle, last, rfl⟩
  · rwa [List.append_nil] at hrest
  · rw [← List.append_assoc] at hrest
    obtain ⟨rfl, -⟩ := List.append_inj' hrest rfl
    rw [List.append_assoc] at way'
    obtain ⟨b, first, second⟩ := way'.exists_between
    obtain rfl := way.unique first
    obtain ⟨u, hu, -⟩ := stored.leads way
    cases hu.eq_nil_of_leads second

theorem StandsAt.slot_eq {p : Position} (h : g.StandsAt ⟨a, none⟩ path p)
    (ends : g.EndsIn a index i path) : p.slot = some (index, i) := by
  obtain ⟨above, rfl, way⟩ := ends
  rcases h with ⟨hnil, -⟩ | ⟨above', index', i', r, hpath, way', -, -, hslot⟩
  · simp at hnil
  · obtain ⟨rfl, hi⟩ := List.append_inj' hpath rfl
    obtain rfl := Node.func.inj (way.unique way')
    rw [hslot, (List.cons.inj hi).1]

/-! ### Tables without shared records -/

/-- No record within reach of the root is in two slots. -/
def HasOwnSlots (g : TermGraph) : Prop :=
  ∀ index i index' i' j, g.InSlot index i j → g.InSlot index' i' j → index = index' ∧ i = i'

theorem Leads.exists_inSlot (way : g.Leads g.root (path ++ [i]) (.func j)) :
    ∃ index, g.Leads g.root path (.func index) ∧ g.InSlot index i j := by
  obtain ⟨b, first, last⟩ := way.exists_between
  cases last with
  | @down index _ r _ _ _ found nth rest =>
    cases rest
    exact ⟨index, first, path, r, first, found, nth⟩

/-- **One slot, one way.** Going back from a record, every step is to the record that has it in its
only slot, and the steps end at the root. -/
theorem HasOwnSlots.leads_unique (own : g.HasOwnSlots) (stored : g.Stores g.root t)
    (way : g.Leads g.root path (.func j)) (way' : g.Leads g.root path' (.func j)) :
    path = path' := by
  induction path using List.reverseRecOn generalizing path' j with
  | nil =>
    rw [← way.unique (.here _)] at stored way'
    exact (stored.eq_nil_of_leads way').symm
  | append_singleton above i ih =>
    rcases path'.eq_nil_or_concat' with rfl | ⟨above', i', rfl⟩
    · rw [← way'.unique (.here _)] at stored way
      exact stored.eq_nil_of_leads way
    · obtain ⟨index, first, hslot⟩ := way.exists_inSlot
      obtain ⟨index', first', hslot'⟩ := way'.exists_inSlot
      obtain ⟨rfl, rfl⟩ := own _ _ _ _ _ hslot hslot'
      rw [ih first first']

end TermGraph

namespace Expression

variable {e new : Expression} {path : List Nat} {slot : Option (Nat × Nat)} {p : Position}
  {o : Occurrence}

/-! ### Positions that share a slot -/

/-- The positions, each with the occurrence that it stands for. -/
def entries (e : Expression) : List (Position × Occurrence) :=
  e.positions.zip e.term.occurrences

/-- The paths of the occurrences whose positions are in the slot. -/
def pathsIn (e : Expression) (slot : Option (Nat × Nat)) : List (List Nat) :=
  (e.entries.filter fun entry => entry.1.slot = slot).map fun entry => entry.2.path

theorem mem_pathsIn :
    path ∈ e.pathsIn slot ↔ ∃ p o, (p, o) ∈ e.entries ∧ p.slot = slot ∧ o.path = path := by
  simp [pathsIn, and_assoc]

theorem mem_pathsIn_of_mem_entries (entry : (p, o) ∈ e.entries) : o.path ∈ e.pathsIn p.slot :=
  mem_pathsIn.2 ⟨p, o, entry, rfl, rfl⟩

theorem exists_hasAt_of_mem_pathsIn (hpath : path ∈ e.pathsIn slot) :
    ∃ u, e.term.HasAt path u := by
  obtain ⟨p, o, entry, -, rfl⟩ := mem_pathsIn.1 hpath
  exact ⟨o.term, Term.mem_occurrences.1 (List.of_mem_zip entry).2⟩

section

variable (h : e.Denotes e.term)
include h

theorem marks_of_mem_entries (entry : (p, o) ∈ e.entries) :
    e.graph.Marks ⟨e.graph.root, none⟩ p o :=
  (List.forall₂_iff_zip.1 h.forall₂_marks).2 entry

theorem map_snd_entries : e.entries.map Prod.snd = e.term.occurrences :=
  List.map_snd_zip (Nat.le_of_eq h.forall₂_marks.length_eq.symm)

theorem exists_entry {u : Term} (hat : e.term.HasAt path u) :
    ∃ p, (p, ⟨path, u⟩) ∈ e.entries := by
  have hmem : ⟨path, u⟩ ∈ e.entries.map Prod.snd := by
    rw [map_snd_entries h]
    exact Term.mem_occurrences.2 hat
  obtain ⟨⟨p, o⟩, entry, rfl⟩ := List.mem_map.1 hmem
  exact ⟨p, entry⟩

theorem nodup_pathsIn (slot : Option (Nat × Nat)) : (e.pathsIn slot).Nodup := by
  have hsublist : (e.pathsIn slot).Sublist (e.term.occurrences.map Occurrence.path) := by
    rw [← map_snd_entries h, List.map_map]
    exact List.filter_sublist.map _
  apply List.Nodup.sublist hsublist
  exact e.term.pairwise_path_occurrences.imp fun hlt => ne_of_lt hlt

theorem pathsIn_none : e.pathsIn none = [[]] := by
  refine Term.eq_singleton_of_nodup (nodup_pathsIn h none) fun path => ⟨fun hpath => ?_, ?_⟩
  · obtain ⟨p, o, entry, hslot, rfl⟩ := mem_pathsIn.1 hpath
    exact (marks_of_mem_entries h entry).1.eq_nil hslot
  · rintro rfl
    obtain ⟨p, entry⟩ := exists_entry h (.root e.term)
    rcases (marks_of_mem_entries h entry).1 with ⟨-, rfl⟩ | ⟨above, index, i, r, hnil, -⟩
    · exact mem_pathsIn_of_mem_entries entry
    · simp at hnil

theorem endsIn_of_mem_pathsIn {index i : Nat} (hpath : path ∈ e.pathsIn (some (index, i))) :
    e.graph.EndsIn e.graph.root index i path := by
  obtain ⟨p, o, entry, hslot, rfl⟩ := mem_pathsIn.1 hpath
  exact ((marks_of_mem_entries h entry).1.of_slot hslot).1

/-- A slot that holds something is at the end of every way through it. -/
theorem mem_pathsIn_of_endsIn {index i : Nat} {r : Record} {arg : Node}
    (found : e.graph.records[index]? = some r) (nth : r.args[i]? = some arg)
    (ends : e.graph.EndsIn e.graph.root index i path) : path ∈ e.pathsIn (some (index, i)) := by
  have way : e.graph.Leads e.graph.root path arg := by
    obtain ⟨above, rfl, way⟩ := ends
    exact way.append (.down found nth (.here arg))
  obtain ⟨u, -, hat⟩ := h.leads way
  obtain ⟨p, entry⟩ := exists_entry h hat
  rw [← (marks_of_mem_entries h entry).1.slot_eq ends]
  exact mem_pathsIn_of_mem_entries entry

theorem pairwise_apart_pathsIn (slot : Option (Nat × Nat)) :
    (e.pathsIn slot).Pairwise Term.Apart := by
  refine (nodup_pathsIn h slot).pairwise_of_forall_ne fun path hpath path' hpath' hne => ?_
  rcases slot with _ | ⟨index, i⟩
  · rw [pathsIn_none h, List.mem_singleton] at hpath hpath'
    exact absurd (hpath.trans hpath'.symm) hne
  · have ends := endsIn_of_mem_pathsIn h hpath
    have ends' := endsIn_of_mem_pathsIn h hpath'
    exact ⟨fun goesOn => hne (h.eq_of_endsIn ends ends' goesOn),
      fun goesOn => hne (h.eq_of_endsIn ends' ends goesOn).symm⟩

/-- **Replacing touches a slot.** -/
theorem exists_replace_pathsIn (entry : (p, o) ∈ e.entries) (same : new.ctx = e.ctx)
    (denotes : new.Denotes new.term) :
    ∃ e', e.replace p.slot new = .ok e' ∧ e'.ctx = e.ctx ∧
      e'.Denotes (e.term.replaceAll (e.pathsIn p.slot) new.term) := by
  have stands := (marks_of_mem_entries h entry).1
  rcases hslot : p.slot with _ | ⟨index, i⟩
  · rw [pathsIn_none h]
    exact ⟨new, rfl, same, denotes⟩
  · obtain ⟨-, r, found, nth⟩ := stands.of_slot hslot
    obtain ⟨g', hok, hstores⟩ := TermGraph.Stores.exists_replaceArg h stands hslot
      (nodup_pathsIn h (some (index, i)))
      (fun path => ⟨endsIn_of_mem_pathsIn h, mem_pathsIn_of_endsIn h found nth⟩) denotes
    exact ⟨e.withGraph g', bind_eq_ok.2 ⟨g', hok, rfl⟩, rfl, hstores⟩

theorem pathsIn_eq_singleton (own : e.graph.HasOwnSlots) (entry : (p, o) ∈ e.entries) :
    e.pathsIn p.slot = [o.path] := by
  have hself := mem_pathsIn_of_mem_entries entry
  refine Term.eq_singleton_of_nodup (nodup_pathsIn h p.slot) fun path => ⟨fun hpath => ?_, ?_⟩
  · rcases hslot : p.slot with _ | ⟨index, i⟩
    · rw [hslot, pathsIn_none h, List.mem_singleton] at hpath hself
      rw [hpath, hself]
    · rw [hslot] at hpath hself
      obtain ⟨above, rfl, way⟩ := endsIn_of_mem_pathsIn h hpath
      obtain ⟨above', hpath', way'⟩ := endsIn_of_mem_pathsIn h hself
      rw [hpath', own.leads_unique h way way']
  · rintro rfl
    exact hself

/-- The ways to a record go on to its first argument, whose slot has one path. -/
theorem leads_unique_of_single (arity : ∀ r ∈ e.graph.records, 0 < r.arity)
    (single : ∀ p o, (p, o) ∈ e.entries → e.pathsIn p.slot = [o.path]) {path' : List Nat} {j : Nat}
    (way : e.graph.Leads e.graph.root path (.func j))
    (way' : e.graph.Leads e.graph.root path' (.func j)) : path = path' := by
  have found := Array.getElem?_eq_getElem (way.lt_size h)
  have nth := List.getElem?_eq_getElem (arity _ (Array.mem_of_getElem? found))
  have hmem := mem_pathsIn_of_endsIn h found nth ⟨_, rfl, way⟩
  have hmem' := mem_pathsIn_of_endsIn h found nth ⟨_, rfl, way'⟩
  obtain ⟨p, o, entry, hslot, -⟩ := mem_pathsIn.1 hmem
  rw [← hslot, single p o entry, List.mem_singleton] at hmem hmem'
  exact (List.append_inj' (hmem.trans hmem'.symm) rfl).1

/-- Every slot has one path exactly if every record has one slot. -/
theorem pathsIn_eq_singleton_iff (arity : ∀ r ∈ e.graph.records, 0 < r.arity) :
    (∀ p o, (p, o) ∈ e.entries → e.pathsIn p.slot = [o.path]) ↔ e.graph.HasOwnSlots := by
  constructor
  · intro single index i index' i' j first second
    exact first.unique second (leads_unique_of_single h arity single)
  · exact fun own p o entry => pathsIn_eq_singleton h own entry

end

end Expression

namespace Statement

variable {s : Statement} {ctx : Context}

/-! ### Statements -/

/-- Any expression of the context can be put at the position. This replaces the subterms at the ends
of the paths, and leaves the other side as it is. -/
def Replaces (s : Statement) (entry : Side × Position) (paths : List (List Nat)) : Prop :=
  ∀ new : Expression, new.ctx = s.ctx → new.Denotes new.term →
    ∃ s', s.replace entry.1 entry.2.slot new = .ok s' ∧
      (s'.side entry.1).Denotes ((s.side entry.1).term.replaceAll paths new.term) ∧
      ∀ other, other ≠ entry.1 → s'.side other = s.side other

/-- The position stands for the site. It shows the subterm that is there. Replacing what is there
replaces every occurrence in the same slot, and so only this one if there is no other. -/
structure Shares (s : Statement) (entry : Side × Position) (site : Site) : Prop where
  side : entry.1 = site.side
  shows : ∃ part, (s.side entry.1).viewAt entry.2.node = .ok part ∧ part.ctx = s.ctx ∧
    part.Denotes site.occurrence.term
  mem : site.occurrence.path ∈ (s.side entry.1).pathsIn entry.2.slot
  replaces : s.Replaces entry ((s.side entry.1).pathsIn entry.2.slot)
  once : s.Replaces entry [site.occurrence.path] ↔
    (s.side entry.1).pathsIn entry.2.slot = [site.occurrence.path]

theorem ctx_side (s : Statement) (side : Side) : (s.side side).ctx = s.ctx := by
  cases side <;> rfl

theorem exists_replace_of_side {side : Side} {slot : Option (Nat × Nat)} {new e : Expression}
    (ok : (s.side side).replace slot new = .ok e) (same : e.ctx = s.ctx) :
    ∃ s', s.replace side slot new = .ok s' ∧ s'.side side = e ∧
      ∀ other, other ≠ side → s'.side other = s.side other := by
  obtain ⟨_, stored⟩ := e
  obtain rfl := same
  have hsame : s.ctx.same s.ctx = true := by simp [Context.same]
  cases side with
  | lhs =>
    refine ⟨⟨s.ctx, stored, s.right⟩, bind_eq_ok.2 ⟨_, ok, ?_⟩, rfl, ?_⟩
    · exact bind_eq_ok.2 ⟨(), if_pos hsame, rfl⟩
    · rintro (_ | _) hother
      · exact absurd rfl hother
      · rfl
  | rhs =>
    refine ⟨⟨s.ctx, s.left, stored⟩, bind_eq_ok.2 ⟨_, ok, ?_⟩, rfl, ?_⟩
    · exact bind_eq_ok.2 ⟨(), if_pos hsame, rfl⟩
    · rintro (_ | _) hother
      · rfl
      · exact absurd rfl hother

theorem side_equation (s : Statement) (side : Side) :
    s.equation.side side = (s.side side).term := by
  cases side <;> rfl

section

variable (h : ∀ side, (s.side side).Denotes (s.side side).term)
include h

/-- The positions and the sites go side by side. -/
theorem forall₂_sites_iff {R : Side × Position → Site → Prop} :
    List.Forall₂ R s.positions s.equation.sites ↔
      ∀ side p o, (p, o) ∈ (s.side side).entries → R (side, p) ⟨side, o⟩ := by
  have hleft : s.lhs.positions.length = s.left.term.occurrences.length :=
    (h .lhs).forall₂_marks.length_eq
  have hright : s.rhs.positions.length = s.right.term.occurrences.length :=
    (h .rhs).forall₂_marks.length_eq
  have hlength : s.positions.length = s.equation.sites.length := by
    simp [positions, Equation.sites, equation, hleft, hright]
  have hzip : s.positions.zip s.equation.sites =
      s.lhs.entries.map (Prod.map (Prod.mk .lhs) (Site.mk .lhs)) ++
        s.rhs.entries.map (Prod.map (Prod.mk .rhs) (Site.mk .rhs)) := by
    rw [positions, Equation.sites, List.zip_append (by simp [equation, hleft]), List.zip_map,
      List.zip_map]
    rfl
  rw [List.forall₂_iff_zip, hzip]
  simp only [hlength, true_and, List.mem_append, List.mem_map, Prod.exists, Prod.map_apply,
    Prod.mk.injEq]
  constructor
  · intro each side p o entry
    cases side with
    | lhs => exact each (.inl ⟨p, o, entry, rfl, rfl⟩)
    | rhs => exact each (.inr ⟨p, o, entry, rfl, rfl⟩)
  · rintro each _ _ (⟨p, o, entry, rfl, rfl⟩ | ⟨p, o, entry, rfl, rfl⟩)
    · exact each .lhs p o entry
    · exact each .rhs p o entry

theorem replaces_pathsIn {side : Side} {p : Position} {o : Occurrence}
    (entry : (p, o) ∈ (s.side side).entries) :
    s.Replaces (side, p) ((s.side side).pathsIn p.slot) := by
  intro new same denotes
  obtain ⟨e, hok, hctx, hdenotes⟩ :=
    Expression.exists_replace_pathsIn (h side) entry (same.trans (s.ctx_side side).symm) denotes
  obtain ⟨s', hok', rfl, hothers⟩ := exists_replace_of_side hok (hctx.trans (s.ctx_side side))
  exact ⟨s', hok', hdenotes, hothers⟩

theorem replaces_path_iff {side : Side} {p : Position} {o : Occurrence}
    (entry : (p, o) ∈ (s.side side).entries) :
    s.Replaces (side, p) [o.path] ↔ (s.side side).pathsIn p.slot = [o.path] := by
  have hreplaces := replaces_pathsIn h entry
  constructor
  · intro hone
    have agree (id : Nat) : (s.side side).term.replaceAll ((s.side side).pathsIn p.slot) (.var id) =
        (s.side side).term.replaceAt o.path (.var id) := by
      obtain ⟨s', hok, hdenotes, -⟩ := hreplaces (.free s.ctx id) rfl (.free id)
      obtain ⟨s'', hok', hdenotes', -⟩ := hone (.free s.ctx id) rfl (.free id)
      obtain rfl := Except.ok.inj (hok.symm.trans hok')
      exact hdenotes.term_eq.symm.trans hdenotes'.term_eq
    apply Term.eq_singleton_of_replaceAll (v := .var 0) (w := .var 1)
    · exact fun path hpath => Expression.exists_hasAt_of_mem_pathsIn hpath
    · exact Expression.nodup_pathsIn (h side) p.slot
    · exact Expression.pairwise_apart_pathsIn (h side) p.slot
    · exact Expression.mem_pathsIn_of_mem_entries entry
    · simp
    · exact agree 0
    · exact agree 1
  · intro hone
    rwa [hone] at hreplaces

theorem forall₂_shares : List.Forall₂ s.Shares s.positions s.equation.sites := by
  refine (forall₂_sites_iff h).2 fun side p o entry => ?_
  have marks := Expression.marks_of_mem_entries (h side) entry
  obtain ⟨part, hok, hctx, hpart⟩ := Expression.exists_viewAt marks.2
  constructor
  · rfl
  · exact ⟨part, hok, hctx.trans (s.ctx_side side), hpart⟩
  · exact Expression.mem_pathsIn_of_mem_entries entry
  · exact replaces_pathsIn h entry
  · exact replaces_path_iff h entry

theorem forall₂_replaces_iff (arity : ∀ side, ∀ r ∈ (s.side side).graph.records, 0 < r.arity) :
    List.Forall₂ (fun entry site => s.Replaces entry [site.occurrence.path]) s.positions
        s.equation.sites ↔ ∀ side, (s.side side).graph.HasOwnSlots := by
  rw [forall₂_sites_iff h]
  refine forall_congr' fun side => ?_
  rw [← Expression.pathsIn_eq_singleton_iff (h side) (arity side)]
  exact forall_congr' fun p => forall_congr' fun o => forall_congr' fun entry =>
    replaces_path_iff h entry

end

/-- **Replacing in what was read touches one slot.** The positions of a statement that was read from
an archive are the sites of its equation, one for one and in the same order. Putting an expression
of the context at one of them always succeeds, and replaces all occurrences whose positions are in
the same slot. So it replaces just the one occurrence, at every position, exactly if no record
within reach of a root is in two slots. -/
theorem replacing_touches_one_slot {bytes : Archive.Bytes} (ok : load ctx bytes = .ok s) :
    s.ctx = ctx ∧
      (∀ side, (s.side side).Denotes (s.equation.side side)) ∧
      List.Forall₂ s.Shares s.positions s.equation.sites ∧
      (List.Forall₂ (fun entry site => s.Replaces entry [site.occurrence.path]) s.positions
        s.equation.sites ↔ ∀ side, (s.side side).graph.HasOwnSlots) := by
  obtain ⟨left, right, rest, rest', hleft, hright, known, known', rfl⟩ := load_eq_ok_iff.1 ok
  have safe := known.isSafe (TermGraph.isOf_of_load hleft).2
  have safe' := known'.isSafe (TermGraph.isOf_of_load hright).2
  have h : ∀ side, ((Statement.mk ctx (.own left) (.own right)).side side).Denotes
      ((Statement.mk ctx (.own left) (.own right)).side side).term := by
    rintro (_ | _)
    · exact safe.stores _ safe.root
    · exact safe'.stores _ safe'.root
  refine ⟨rfl, fun side => ?_, forall₂_shares h, forall₂_replaces_iff h ?_⟩
  · rw [side_equation]
    exact h side
  · rintro (_ | _)
    · exact fun r hr => (safe.arity r hr).1
    · exact fun r hr => (safe'.arity r hr).1

/-- An application of two arguments, which are one record. -/
def doubled : Statement :=
  ⟨.paired, .own ⟨.func 1, #[⟨1, [.free 0]⟩, ⟨0, [.func 0, .func 0]⟩]⟩, .own ⟨.free 0, #[]⟩⟩

theorem load_doubled : load .paired doubled.save = .ok doubled := by
  decide +kernel

theorem replacing_touches_one_slot_doubled :
    load .paired doubled.save = .ok doubled ∧
      List.Forall₂ doubled.Shares doubled.positions doubled.equation.sites ∧
      ¬List.Forall₂ (fun entry site => doubled.Replaces entry [site.occurrence.path])
        doubled.positions doubled.equation.sites := by
  obtain ⟨-, -, hshares, hiff⟩ := replacing_touches_one_slot load_doubled
  refine ⟨load_doubled, hshares, fun hall => ?_⟩
  have first : (doubled.side .lhs).graph.InSlot 1 0 0 := ⟨[], _, .here _, rfl, rfl⟩
  have second : (doubled.side .lhs).graph.InSlot 1 1 0 := ⟨[], _, .here _, rfl, rfl⟩
  have hslot := hiff.1 hall .lhs 1 0 1 1 0 first second
  exact absurd hslot.2 (by decide)

/-- Both variables of the left side are in one slot, so a new one in place of the first is also in
place of the second. -/
theorem replace_doubled :
    load .paired doubled.save = .ok doubled ∧
      doubled.equation.sites[2]? = some ⟨.lhs, ⟨[0, 0], .var 0⟩⟩ ∧
      ∃ s, doubled.replaceNth? 2 (.free .paired 5) = some (.ok s) ∧
        s.equation = ⟨.app 0 [.app 1 [.var 5], .app 1 [.var 5]], .var 0⟩ ∧
        s.equation ≠ doubled.equation.replaceAt ⟨.lhs, ⟨[0, 0], .var 0⟩⟩ (.var 5) := by
  refine ⟨load_doubled, by decide +kernel, ?_⟩
  refine ⟨⟨.paired, .own ⟨.func 1, #[⟨1, [.free 5]⟩, ⟨0, [.func 0, .func 0]⟩]⟩,
    .own ⟨.free 0, #[]⟩⟩, ?_, ?_, ?_⟩
  · decide +kernel
  · decide +kernel
  · decide +kernel

end Statement

end Equational
