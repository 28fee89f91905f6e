import Equational.Proofs.Substitution
import Equational.Term.Occurrence

/-!
# Subterms and their replacement

`Term.HasAt` says which subterm stands at the end of a path. The listed occurrences are
exactly these, in the order of their paths. Replacement at the end of a path leaves alone what is
neither above nor below, brings in no variables but those of the new subterm, and substitution
passes through it. Replacement at the ends of several paths goes argument by argument, and does not
depend on their order if no path goes on from another.
-/

namespace Equational

namespace Term

/-- The subterm at the end of a path. -/
inductive HasAt : Term → List Nat → Term → Prop
  | root (t : Term) : HasAt t [] t
  | arg {symbol i : Nat} {args : List Term} {t u : Term} {path : List Nat}
      (nth : args[i]? = some t) (below : HasAt t path u) :
      HasAt (.app symbol args) (i :: path) u

/-! ### The listed occurrences -/

theorem mem_occurrencesArgs {n : Nat} {ts : List Term} {o : Occurrence} :
    o ∈ occurrencesArgs n ts ↔
      ∃ (i : Nat) (t : Term), ts[i]? = some t ∧
        ∃ inner ∈ t.occurrences, inner.below (n + i) = o := by
  induction ts generalizing n with
  | nil => simp [occurrencesArgs]
  | cons t ts ih =>
    simp only [occurrencesArgs, List.mem_append, List.mem_map, ih]
    constructor
    · rintro (⟨inner, hmem, rfl⟩ | ⟨i, u, hu, inner, hmem, rfl⟩)
      · exact ⟨0, t, rfl, inner, hmem, rfl⟩
      · exact ⟨i + 1, u, hu, inner, hmem, by rw [Nat.add_assoc, Nat.add_comm 1]⟩
    · rintro ⟨i, u, hu, inner, hmem, rfl⟩
      cases i with
      | zero =>
        obtain rfl : t = u := by simpa using hu
        exact .inl ⟨inner, hmem, rfl⟩
      | succ i =>
        exact .inr ⟨i, u, hu, inner, hmem, by rw [Nat.add_assoc, Nat.add_comm 1]⟩

mutual
/-- Occurrences are listed in the lexicographic order of their paths. -/
theorem pairwise_occurrences : (t : Term) → t.occurrences.Pairwise fun a b => a.path < b.path
  | .var _ => List.pairwise_singleton _ _
  | .const _ => List.pairwise_singleton _ _
  | .app _ args => by
    refine List.pairwise_cons.2 ⟨fun o ho => ?_, pairwise_occurrencesArgs 0 args⟩
    obtain ⟨i, t, _, inner, _, rfl⟩ := mem_occurrencesArgs.1 ho
    exact List.nil_lt_cons _ _
theorem pairwise_occurrencesArgs (n : Nat) :
    (ts : List Term) → (occurrencesArgs n ts).Pairwise fun a b => a.path < b.path
  | [] => .nil
  | t :: ts => by
    refine List.pairwise_append.2 ⟨?_, pairwise_occurrencesArgs (n + 1) ts, ?_⟩
    · refine List.pairwise_map.2 ((pairwise_occurrences t).imp fun h => ?_)
      exact List.cons_lt_cons_iff.2 (.inr ⟨rfl, h⟩)
    · intro a ha b hb
      obtain ⟨inner, _, rfl⟩ := List.mem_map.1 ha
      obtain ⟨i, u, _, inner', _, rfl⟩ := mem_occurrencesArgs.1 hb
      exact List.cons_lt_cons_iff.2 (.inl (by omega))
end

theorem mem_occurrences {t : Term} {o : Occurrence} :
    o ∈ t.occurrences ↔ t.HasAt o.path o.term := by
  induction t generalizing o with
  | var id =>
    simp only [occurrences, List.mem_singleton]
    constructor
    · rintro rfl
      exact .root _
    · obtain ⟨path, u⟩ := o
      rintro ⟨⟩
      rfl
  | const symbol =>
    simp only [occurrences, List.mem_singleton]
    constructor
    · rintro rfl
      exact .root _
    · obtain ⟨path, u⟩ := o
      rintro ⟨⟩
      rfl
  | app symbol args ih =>
    simp only [occurrences, List.mem_cons, mem_occurrencesArgs, Nat.zero_add]
    constructor
    · rintro (rfl | ⟨i, t, ht, inner, hmem, rfl⟩)
      · exact .root _
      · exact .arg ht ((ih t (List.mem_of_getElem? ht)).1 hmem)
    · obtain ⟨path, u⟩ := o
      intro h
      cases h with
      | root => exact .inl rfl
      | @arg _ i _ t _ path ht below =>
        exact .inr ⟨i, t, ht, ⟨path, u⟩, (ih t (List.mem_of_getElem? ht)).2 below, rfl⟩

theorem pairwise_path_occurrencesArgs {ts : List Term}
    (each : ∀ t ∈ ts, (t.occurrences.map Occurrence.path).Pairwise (· < ·)) (n : Nat) :
    ((occurrencesArgs n ts).map Occurrence.path).Pairwise (· < ·) := by
  induction ts generalizing n with
  | nil => exact .nil
  | cons t ts ih =>
    rw [occurrencesArgs, List.map_append, List.pairwise_append]
    refine ⟨?_, ih (fun t' ht' => each t' (List.mem_cons_of_mem _ ht')) (n + 1), ?_⟩
    · rw [List.map_map, List.pairwise_map]
      refine (List.pairwise_map.1 (each t List.mem_cons_self)).imp fun {o o'} h => ?_
      exact List.cons_lt_cons_iff.2 (.inr ⟨rfl, h⟩)
    · -- The first number on the path tells the arguments apart.
      intro path hpath path' hpath'
      obtain ⟨_, ho, rfl⟩ := List.mem_map.1 hpath
      obtain ⟨o, -, rfl⟩ := List.mem_map.1 ho
      obtain ⟨_, ho', rfl⟩ := List.mem_map.1 hpath'
      obtain ⟨i, -, -, o', -, rfl⟩ := mem_occurrencesArgs.1 ho'
      exact List.cons_lt_cons_iff.2 (.inl (by omega))

/-- The occurrences are listed in the lexicographic order of their paths, so none is listed twice.
-/
theorem pairwise_path_occurrences (t : Term) :
    (t.occurrences.map Occurrence.path).Pairwise (· < ·) := by
  induction t with
  | var id => exact List.pairwise_singleton _ _
  | const symbol => exact List.pairwise_singleton _ _
  | app symbol args ih =>
    rw [occurrences, List.map_cons, List.pairwise_cons]
    refine ⟨fun path hpath => ?_, pairwise_path_occurrencesArgs ih 0⟩
    obtain ⟨_, ho, rfl⟩ := List.mem_map.1 hpath
    obtain ⟨i, -, -, o, -, rfl⟩ := mem_occurrencesArgs.1 ho
    exact List.nil_lt_cons _ _

/-! ### Replacement -/

theorem replaceAt_arg {symbol i : Nat} {args : List Term} {t : Term} (h : args[i]? = some t)
    (path : List Nat) (new : Term) :
    (app symbol args).replaceAt (i :: path) new =
      .app symbol (args.set i (t.replaceAt path new)) := by
  rw [replaceAt, List.modify_eq_set, h, Option.getD_some]

namespace HasAt

variable {t u : Term} {path : List Nat}

theorem vars_subset (h : t.HasAt path u) {id : Nat} (hid : id ∈ u.vars) : id ∈ t.vars := by
  induction h with
  | root t => exact hid
  | arg nth below ih => exact mem_vars_app.2 ⟨_, List.mem_of_getElem? nth, ih hid⟩

theorem unique {v : Term} (h : t.HasAt path u) (h' : t.HasAt path v) : u = v := by
  induction h with
  | root t =>
    cases h'
    rfl
  | arg nth below ih =>
    cases h' with
    | arg nth' below' =>
      obtain rfl := Option.some.inj (nth.symm.trans nth')
      exact ih below'

theorem mem_vars_replaceAt (h : t.HasAt path u) {new : Term} {id : Nat}
    (hid : id ∈ (t.replaceAt path new).vars) : id ∈ t.vars ∨ id ∈ new.vars := by
  induction h with
  | root t =>
    rw [replaceAt] at hid
    exact .inr hid
  | @arg symbol i args t u path nth below ih =>
    rw [replaceAt_arg nth] at hid
    obtain ⟨a, ha, hid⟩ := mem_vars_app.1 hid
    rcases List.mem_or_eq_of_mem_set ha with ha | rfl
    · exact .inl (mem_vars_app.2 ⟨a, ha, hid⟩)
    · rcases ih hid with h | h
      · exact .inl (mem_vars_app.2 ⟨t, List.mem_of_getElem? nth, h⟩)
      · exact .inr h

theorem replaceAt_self (h : t.HasAt path u) (new : Term) :
    (t.replaceAt path new).HasAt path new := by
  induction h with
  | root t =>
    rw [replaceAt]
    exact .root new
  | @arg symbol i args t u path nth below ih =>
    rw [replaceAt_arg nth]
    exact .arg (List.getElem?_set_self (List.getElem?_eq_some_iff.1 nth).1) ih

/-- What is neither above nor below the end of the path stays as it is. -/
theorem hasAt_replaceAt_iff (h : t.HasAt path u) (new : Term) {other : List Nat} {v : Term}
    (notBelow : ¬path <+: other) (notAbove : ¬other <+: path) :
    (t.replaceAt path new).HasAt other v ↔ t.HasAt other v := by
  induction h generalizing other with
  | root t => exact absurd List.nil_prefix notBelow
  | @arg symbol i args t u path nth below ih =>
    rw [replaceAt_arg nth]
    cases other with
    | nil => exact absurd List.nil_prefix notAbove
    | cons j other =>
      by_cases hj : j = i
      · subst hj
        have ih := ih (fun h => notBelow ((List.prefix_cons_inj j).2 h))
          fun h => notAbove ((List.prefix_cons_inj j).2 h)
        have hnew := List.getElem?_set_self (a := t.replaceAt path new)
          (List.getElem?_eq_some_iff.1 nth).1
        constructor
        · rintro ⟨⟩
          next nth' below' =>
            obtain rfl := Option.some.inj (nth'.symm.trans hnew)
            exact .arg nth (ih.1 below')
        · rintro ⟨⟩
          next nth' below' =>
            obtain rfl := Option.some.inj (nth'.symm.trans nth)
            exact .arg hnew (ih.2 below')
      · constructor
        · rintro ⟨⟩
          next nth' below' =>
            rw [List.getElem?_set_ne (Ne.symm hj)] at nth'
            exact .arg nth' below'
        · rintro ⟨⟩
          next nth' below' =>
            refine .arg ?_ below'
            rw [List.getElem?_set_ne (Ne.symm hj)]
            exact nth'

theorem bind (f : Nat → Term) (h : t.HasAt path u) : (t.bind f).HasAt path (u.bind f) := by
  induction h with
  | root t => exact .root _
  | arg nth below ih =>
    rw [bind_app]
    refine .arg ?_ ih
    rw [List.getElem?_map, nth]
    rfl

theorem bind_replaceAt (f : Nat → Term) (h : t.HasAt path u) (new : Term) :
    (t.replaceAt path new).bind f = (t.bind f).replaceAt path (new.bind f) := by
  induction h with
  | root t => rw [replaceAt, replaceAt]
  | @arg symbol i args t u path nth below ih =>
    have nth' : (args.map (Term.bind f))[i]? = some (t.bind f) := by
      rw [List.getElem?_map, nth]
      rfl
    rw [replaceAt_arg nth, bind_app, bind_app, replaceAt_arg nth', List.map_set, ih]

end HasAt

theorem mem_vars_iff_hasAt {t : Term} {id : Nat} :
    id ∈ t.vars ↔ ∃ path, t.HasAt path (.var id) := by
  refine ⟨fun hid => ?_, fun ⟨path, h⟩ => h.vars_subset (mem_vars_var.2 rfl)⟩
  induction t with
  | var i =>
    obtain rfl := mem_vars_var.1 hid
    exact ⟨[], .root _⟩
  | const symbol => exact absurd hid (by simp)
  | app symbol args ih =>
    obtain ⟨t, ht, hid⟩ := mem_vars_app.1 hid
    obtain ⟨i, nth⟩ := List.mem_iff_getElem?.1 ht
    obtain ⟨path, below⟩ := ih t ht hid
    exact ⟨i :: path, .arg nth below⟩

/-! ### Replacement in several places -/

/-- Replaces the subterms at the ends of several paths, one after the other. -/
def replaceAll (t : Term) (paths : List (List Nat)) (new : Term) : Term :=
  paths.foldl (fun t path => t.replaceAt path new) t

/-- What is left of a path that goes through argument `i`. -/
def tailBelow (i : Nat) : List Nat → Option (List Nat)
  | [] => none
  | j :: path => if j = i then some path else none

theorem tailBelow_eq_some {i : Nat} {path rest : List Nat} :
    tailBelow i path = some rest ↔ path = i :: rest := by
  cases path with
  | nil => simp [tailBelow]
  | cons j path =>
    by_cases hj : j = i
    · simp [tailBelow, hj]
    · simp [tailBelow, hj]

theorem replaceAll_app {symbol : Nat} {args : List Term} {paths : List (List Nat)} {new : Term}
    (proper : [] ∉ paths) :
    (app symbol args).replaceAll paths new =
      .app symbol (args.mapIdx fun i t => t.replaceAll (paths.filterMap (tailBelow i)) new) := by
  induction paths generalizing args with
  | nil =>
    refine congrArg (app symbol) (List.ext_getElem? fun i => ?_)
    simp [replaceAll]
  | cons path paths ih =>
    cases path with
    | nil => exact absurd List.mem_cons_self proper
    | cons j path =>
      have proper' : [] ∉ paths := fun hmem => proper (List.mem_cons_of_mem _ hmem)
      have hstep : (app symbol args).replaceAll ((j :: path) :: paths) new =
          (app symbol (args.modify j fun t => t.replaceAt path new)).replaceAll paths new := rfl
      rw [hstep, ih proper']
      refine congrArg (app symbol) (List.ext_getElem? fun i => ?_)
      by_cases hij : j = i
      · subst hij
        simp [tailBelow, replaceAll, Function.comp_def]
      · simp [tailBelow, hij]

theorem eq_singleton_of_nodup {α : Type} {a : α} {l : List α} (nodup : l.Nodup)
    (only : ∀ b, b ∈ l ↔ b = a) : l = [a] := by
  apply List.perm_singleton.1
  apply (List.perm_ext_iff_of_nodup nodup (List.pairwise_singleton _ a)).2
  simpa using only

/-- Neither path goes on from the other. -/
def Apart (path path' : List Nat) : Prop := ¬path <+: path' ∧ ¬path' <+: path

section Apart

variable {t : Term} {path : List Nat} {paths : List (List Nat)} (new : Term)

/-- What is apart from a path is still there when the subterm at its end is replaced. -/
theorem HasAt.exists_hasAt_replaceAt {u : Term} (h : t.HasAt path u)
    (present : ∀ p ∈ paths, ∃ w, t.HasAt p w) (apart : ∀ p ∈ paths, Apart path p) :
    ∀ p ∈ paths, ∃ w, (t.replaceAt path new).HasAt p w := by
  intro p hp
  obtain ⟨w, hw⟩ := present p hp
  obtain ⟨notBelow, notAbove⟩ := apart p hp
  exact ⟨w, (h.hasAt_replaceAt_iff new notBelow notAbove).2 hw⟩

theorem hasAt_replaceAll_iff {v : Term} (present : ∀ p ∈ paths, ∃ w, t.HasAt p w)
    (apart : paths.Pairwise Apart) (away : ∀ p ∈ paths, Apart p path) :
    (t.replaceAll paths new).HasAt path v ↔ t.HasAt path v := by
  induction paths generalizing t with
  | nil => rfl
  | cons p paths ih =>
    obtain ⟨first, rest⟩ := List.pairwise_cons.1 apart
    obtain ⟨w, hw⟩ := present p List.mem_cons_self
    obtain ⟨notBelow, notAbove⟩ := away p List.mem_cons_self
    rw [← hw.hasAt_replaceAt_iff new notBelow notAbove]
    have present' := fun q hq => present q (List.mem_cons_of_mem p hq)
    exact ih (hw.exists_hasAt_replaceAt new present' first) rest fun q hq =>
      away q (List.mem_cons_of_mem _ hq)

theorem hasAt_replaceAll (present : ∀ p ∈ paths, ∃ w, t.HasAt p w)
    (apart : paths.Pairwise Apart) (hpath : path ∈ paths) :
    (t.replaceAll paths new).HasAt path new := by
  induction paths generalizing t with
  | nil => cases hpath
  | cons p paths ih =>
    obtain ⟨first, rest⟩ := List.pairwise_cons.1 apart
    obtain ⟨w, hw⟩ := present p List.mem_cons_self
    have present' := fun q hq => present q (List.mem_cons_of_mem p hq)
    have present'' := hw.exists_hasAt_replaceAt new present' first
    rcases List.mem_cons.1 hpath with rfl | hpath
    · apply (hasAt_replaceAll_iff new present'' rest fun q hq => (first q hq).symm).2
      exact hw.replaceAt_self new
    · exact ih present'' rest hpath

end Apart

end Term

namespace Site

/-- The site that stands in an instance of the equation where this one stands. -/
def bind (f : Nat → Term) (site : Site) : Site :=
  ⟨site.side, ⟨site.occurrence.path, site.occurrence.term.bind f⟩⟩

/-- The site that stands in the transposed equation where this one stands. -/
def transpose (site : Site) : Site :=
  ⟨match site.side with | .lhs => .rhs | .rhs => .lhs, site.occurrence⟩

end Site

namespace Equation

variable {e : Equation} {site : Site}

theorem mem_sites :
    site ∈ e.sites ↔ (e.side site.side).HasAt site.occurrence.path site.occurrence.term := by
  obtain ⟨side, o⟩ := site
  cases side with
  | lhs => simp [sites, side, Term.mem_occurrences]
  | rhs => simp [sites, side, Term.mem_occurrences]

theorem vars_of_mem_sites (h : site ∈ e.sites) {id : Nat}
    (hid : id ∈ site.occurrence.term.vars) : id ∈ e.vars := by
  have hmem := (mem_sites.1 h).vars_subset hid
  obtain ⟨side, o⟩ := site
  cases side with
  | lhs => exact mem_vars.2 (.inl hmem)
  | rhs => exact mem_vars.2 (.inr hmem)

theorem bind_mem_sites (f : Nat → Term) (h : site ∈ e.sites) : site.bind f ∈ (e.bind f).sites := by
  have hat := (mem_sites.1 h).bind f
  rw [mem_sites]
  obtain ⟨side, o⟩ := site
  cases side with
  | lhs => exact hat
  | rhs => exact hat

theorem transpose_mem_sites (h : site ∈ e.sites) : site.transpose ∈ e.transpose.sites := by
  have hat := mem_sites.1 h
  rw [mem_sites]
  obtain ⟨side, o⟩ := site
  cases side with
  | lhs => exact hat
  | rhs => exact hat

theorem mem_vars_replaceAt (h : site ∈ e.sites) {new : Term} {id : Nat}
    (hid : id ∈ (e.replaceAt site new).vars) : id ∈ e.vars ∨ id ∈ new.vars := by
  have hat := mem_sites.1 h
  obtain ⟨side, o⟩ := site
  cases side with
  | lhs =>
    rcases mem_vars.1 hid with hid | hid
    · exact (hat.mem_vars_replaceAt hid).imp_left fun h => mem_vars.2 (.inl h)
    · exact .inl (mem_vars.2 (.inr hid))
  | rhs =>
    rcases mem_vars.1 hid with hid | hid
    · exact .inl (mem_vars.2 (.inl hid))
    · exact (hat.mem_vars_replaceAt hid).imp_left fun h => mem_vars.2 (.inr h)

theorem bind_replaceAt (f : Nat → Term) (h : site ∈ e.sites) (new : Term) :
    (e.replaceAt site new).bind f = (e.bind f).replaceAt (site.bind f) (new.bind f) := by
  have hat := (mem_sites.1 h).bind_replaceAt f new
  obtain ⟨side, o⟩ := site
  cases side with
  | lhs => exact congrArg (Equation.mk · (e.rhs.bind f)) hat
  | rhs => exact congrArg (Equation.mk (e.lhs.bind f)) hat

theorem transpose_replaceAt (e : Equation) (site : Site) (new : Term) :
    (e.replaceAt site new).transpose = e.transpose.replaceAt site.transpose new := by
  obtain ⟨side, o⟩ := site
  cases side with
  | lhs => rfl
  | rhs => rfl

end Equation

end Equational
