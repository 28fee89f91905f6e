import Equational.Source
import Mathlib.Data.List.Forall2

/-!
# What a computation that draws on a source gives

`Draws.Meets` is a statement about every source with the given rules: whatever was drawn
before, the computation gives a value with some property and leaves the rules as they
are. Whether a violation may stop it is a parameter, so that the same laws serve for
computations that cannot fail and for those of which only the value is of interest.
`Changes.Meets` says the same of a computation that changes a value in place.
-/

namespace Equational

/-! ### Checked computations -/

theorem ok_bind {α β ε : Type} (a : α) (f : α → Except ε β) :
    (.ok a : Except ε α) >>= f = f a := rfl

theorem bind_eq_ok {α β ε : Type} {x : Except ε α} {f : α → Except ε β} {b : β} :
    x >>= f = .ok b ↔ ∃ a, x = .ok a ∧ f a = .ok b := by
  cases x with
  | error cause => simp [bind, Except.bind]
  | ok a => simp [bind, Except.bind]

theorem bind_congr_ok {α β ε : Type} {x : Except ε α} {f g : α → Except ε β}
    (h : ∀ a, x = .ok a → f a = g a) : x >>= f = x >>= g := by
  cases x with
  | error e => rfl
  | ok a => exact h a rfl

theorem bind_eq_error {α β ε : Type} {x : Except ε α} {f : α → Except ε β} {cause : ε} :
    x >>= f = .error cause ↔ x = .error cause ∨ ∃ a, x = .ok a ∧ f a = .error cause := by
  cases x with
  | error cause' => simp [bind, Except.bind]
  | ok a => simp [bind, Except.bind]

theorem toOption_eq_some {α ε : Type} {x : Except ε α} {a : α} :
    x.toOption = some a ↔ x = .ok a := by
  cases x with
  | error cause => simp [Except.toOption]
  | ok a => simp [Except.toOption]

theorem require_eq_ok {condition : Bool} {cause : Violation} {u : Unit} :
    require condition cause = .ok u ↔ condition = true := by
  cases condition with
  | true => simp [require]
  | false => simp [require]

theorem mapM_eq_ok_iff {α β ε : Type} {f : α → Except ε β} {l : List α} {l' : List β} :
    l.mapM f = .ok l' ↔ List.Forall₂ (fun a b => f a = .ok b) l l' := by
  induction l generalizing l' with
  | nil => simp [pure, Except.pure, eq_comm]
  | cons a l ih =>
    rw [List.mapM_cons, bind_eq_ok, List.forall₂_cons_left_iff]
    constructor
    · rintro ⟨first, hfirst, h⟩
      obtain ⟨rest, hrest, h⟩ := bind_eq_ok.1 h
      obtain rfl := Except.ok.inj h
      exact ⟨first, rest, hfirst, ih.1 hrest, rfl⟩
    · rintro ⟨first, rest, hfirst, hrest, rfl⟩
      exact ⟨first, hfirst, bind_eq_ok.2 ⟨rest, ih.2 hrest, rfl⟩⟩

theorem exists_mapM_eq_ok {α β ε : Type} {f : α → Except ε β} {l : List α}
    (each : ∀ a ∈ l, ∃ b, f a = .ok b) : ∃ l', l.mapM f = .ok l' := by
  induction l with
  | nil => exact ⟨[], rfl⟩
  | cons a l ih =>
    obtain ⟨b, hb⟩ := each a List.mem_cons_self
    obtain ⟨l', hl'⟩ := ih fun a' ha' => each a' (List.mem_cons_of_mem _ ha')
    exact ⟨b :: l', mapM_eq_ok_iff.2 (.cons hb (mapM_eq_ok_iff.1 hl'))⟩

theorem mapM_eq_ok_map {ε β γ : Type} {f : β → Except ε γ} {g : β → γ} {items : List β}
    (each : ∀ item ∈ items, f item = .ok (g item)) : items.mapM f = .ok (items.map g) := by
  rw [mapM_eq_ok_iff, List.forall₂_map_right_iff, List.forall₂_same]
  exact each

theorem mem_of_mapM_ok {α β ε : Type} {f : α → Except ε β} {l : List α} {l' : List β}
    (h : l.mapM f = .ok l') {b : β} (hb : b ∈ l') : ∃ a ∈ l, f a = .ok b := by
  induction l generalizing l' with
  | nil =>
    obtain rfl := Except.ok.inj h
    simp at hb
  | cons a l ih =>
    rw [List.mapM_cons] at h
    obtain ⟨first, hfirst, h⟩ := bind_eq_ok.1 h
    obtain ⟨rest, hrest, h⟩ := bind_eq_ok.1 h
    obtain rfl := Except.ok.inj h
    rcases List.mem_cons.1 hb with rfl | hb
    · exact ⟨a, List.mem_cons_self, hfirst⟩
    · obtain ⟨a', ha', hf⟩ := ih hrest hb
      exact ⟨a', List.mem_cons_of_mem _ ha', hf⟩

theorem exists_of_mapM_ok {α β ε : Type} {f : α → Except ε β} {l : List α} {l' : List β}
    (h : l.mapM f = .ok l') {a : α} (ha : a ∈ l) : ∃ b, f a = .ok b := by
  induction mapM_eq_ok_iff.1 h with
  | nil => cases ha
  | @cons a' b _ _ hfirst _ ih =>
    rcases List.mem_cons.1 ha with rfl | ha
    · exact ⟨b, hfirst⟩
    · exact ih (mapM_eq_ok_iff.2 ‹_›) ha

theorem Source.rules_takeTime (source : Source) : source.takeTime.2.rules = source.rules := by
  rw [takeTime]
  split
  next => rfl
  next => rfl

variable {α β : Type} {rules : List Rule} {lenient : Prop}

/-! ### Draws -/

namespace Draws

theorem runOn_bind (m : Draws α) (f : α → Draws β) (source : Source) :
    (m >>= f).runOn source =
      match m.runOn source with
      | (.ok a, source) => (f a).runOn source
      | (.error cause, source) => (.error cause, source) := by
  simp only [runOn, ExceptT.run, Bind.bind, ExceptT.bind, ExceptT.mk, StateT.run, StateT.bind]
  rcases m source with ⟨_ | a, source'⟩
  · rfl
  · rfl

/-- From every source with the rules, the computation gives a value that satisfies `post` and a
source with the same rules. A violation may stop it only if this is `lenient`. -/
def Meets (rules : List Rule) (lenient : Prop) (m : Draws α) (post : α → Prop) : Prop :=
  ∀ source : Source, source.rules = rules →
    match m.runOn source with
    | (.ok a, source) => source.rules = rules ∧ post a
    | (.error _, _) => lenient

namespace Meets

theorem pure {a : α} {post : α → Prop} (h : post a) :
    Meets rules lenient (Pure.pure a) post :=
  fun _ hs => ⟨hs, h⟩

theorem mono {m : Draws α} {post post' : α → Prop} (h : m.Meets rules lenient post)
    (imp : ∀ a, post a → post' a) : m.Meets rules lenient post' := by
  intro source hs
  have := h source hs
  revert this
  rcases m.runOn source with ⟨_ | a, source'⟩
  · exact fun hlenient => hlenient
  · exact fun ⟨hs, ha⟩ => ⟨hs, imp a ha⟩

theorem bind {m : Draws α} {f : α → Draws β} {mid : α → Prop} {post : β → Prop}
    (first : m.Meets rules lenient mid) (second : ∀ a, mid a → (f a).Meets rules lenient post) :
    (m >>= f).Meets rules lenient post := by
  intro source hs
  have h := first source hs
  rw [runOn_bind]
  revert h
  rcases m.runOn source with ⟨_ | a, source'⟩
  · exact fun hlenient => hlenient
  · rintro ⟨hs, ha⟩
    exact second a ha source' hs

theorem and {m : Draws α} {post post' : α → Prop} (h : m.Meets rules lenient post)
    (h' : m.Meets rules True post') : m.Meets rules lenient fun a => post a ∧ post' a := by
  intro source hs
  have hpost := h source hs
  have hpost' := h' source hs
  revert hpost hpost'
  rcases m.runOn source with ⟨_ | a, source'⟩
  · exact fun hlenient _ => hlenient
  · exact fun hpost hpost' => ⟨hpost.1, hpost.2, hpost'.2⟩

theorem of_runOn {m : Draws α} {post : α → Prop} (h : m.Meets rules lenient post)
    {source source' : Source} (hs : source.rules = rules) {a : α}
    (run : m.runOn source = (.ok a, source')) : source'.rules = rules ∧ post a := by
  have := h source hs
  rw [run] at this
  exact this

theorem exists_runOn {m : Draws α} {post : α → Prop} (h : m.Meets rules False post)
    {source : Source} (hs : source.rules = rules) :
    ∃ a source', m.runOn source = (.ok a, source') ∧ source'.rules = rules ∧ post a := by
  have := h source hs
  revert this
  rcases m.runOn source with ⟨_ | a, source'⟩
  · exact False.elim
  · rintro ⟨hs, ha⟩
    exact ⟨a, source', rfl, hs, ha⟩

end Meets

/-! ### The elementary draws -/

/-- A check gives the value that was checked, if it does not fail. -/
theorem meets_liftM {c : Checked α} (h : lenient ∨ ∃ a, c = .ok a) :
    Meets rules lenient (liftM c) fun a => c = .ok a := by
  intro source hs
  cases c with
  | error cause => exact h.resolve_right fun ⟨_, hok⟩ => nomatch hok
  | ok a => exact ⟨hs, rfl⟩

theorem meets_rules : Meets rules lenient Draws.rules (· = rules) :=
  fun _ hs => ⟨hs, hs⟩

theorem meets_numbered {m : Numbering α} {post : α → Prop} (h : ∀ n, post (m.run n).1) :
    Meets rules lenient (numbered m) post := by
  intro source hs
  exact ⟨hs, h source.next⟩

theorem runOn_below {bound : Nat} (h : 0 < bound) (source : Source) :
    (below bound).runOn source =
      (.ok (source.rng.next64.1.toNat % bound), { source with rng := source.rng.next64.2 }) := by
  have hne : bound ≠ 0 := by omega
  simp only [below, runOn, Lcg.below, if_neg hne]
  rfl

theorem meets_below {bound : Nat} (h : 0 < bound) :
    Meets rules lenient (below bound) (· < bound) := by
  intro source hs
  rw [runOn_below h]
  exact ⟨hs, Nat.mod_lt _ h⟩

theorem runOn_play (tape : Nat) (values : Array Float32) (source : Source) {n : Nat}
    (h : (source.played.get? tape).getD 0 = n) :
    (play tape values).runOn source =
      match values[n % values.size]? with
      | some value => (.ok value, { source with played := source.played.insert tape (n + 1) })
      | none => (.error .emptyTape, source) := by
  subst h
  rfl

theorem meets_play {tape : Nat} {values : Array Float32} (h : lenient ∨ 0 < values.size) :
    Meets rules lenient (play tape values) fun _ => True := by
  intro source hs
  generalize hn : (source.played.get? tape).getD 0 = n
  rw [runOn_play tape values source hn]
  cases hvalue : values[n % values.size]? with
  | some value => exact ⟨hs, trivial⟩
  | none =>
    rcases h with h | h
    · exact h
    · have hsize := Array.getElem?_eq_none_iff.1 hvalue
      have hlt := Nat.mod_lt n h
      omega

/-! ### Shuffling -/

theorem meets_shuffleUpTo {last : Nat} {items : Array α} (fits : last = 0 ∨ last < items.size) :
    Meets rules lenient (shuffleUpTo below last items) fun result =>
      result.toList.Perm items.toList := by
  induction last generalizing items with
  | zero => exact .pure (.refl _)
  | succ last ih =>
    have hlast : last + 1 < items.size := by omega
    refine (meets_below (by omega)).bind fun i hi => ?_
    have hin : last + 1 < items.size ∧ i < items.size := ⟨hlast, by omega⟩
    have hfits : last = 0 ∨ last < (items.swap (last + 1) i hin.1 hin.2).size :=
      .inr (by rw [Array.size_swap]; omega)
    rw [dif_pos hin]
    exact (ih hfits).mono fun result h => h.trans (Array.swap_perm hin.1 hin.2).toList

theorem meets_shuffle (items : Array α) :
    Meets rules lenient (shuffle below items) fun result => result.toList.Perm items.toList :=
  meets_shuffleUpTo (by omega)

end Draws

/-! ### Changes in place -/

namespace Changes

variable {σ τ : Type}

theorem runOn_bind (m : Changes σ α) (f : α → Changes σ β) (s : σ) (source : Source) :
    ((m >>= f).runOn s).run source =
      match (m.runOn s).run source with
      | ((.ok a, s), source) => ((f a).runOn s).run source
      | ((.error cause, s), source) => ((.error cause, s), source) := by
  simp only [runOn, ExceptT.run, Bind.bind, ExceptT.bind, ExceptT.mk, StateT.run, StateT.bind]
  rcases m s source with ⟨⟨_ | a, s'⟩, source'⟩
  · rfl
  · rfl

theorem exists_of_runOn_bind {m : Changes σ α} {f : α → Changes σ β} {s s' : σ} {b : β}
    {source source' : Source}
    (run : ((m >>= f).runOn s).run source = ((.ok b, s'), source')) :
    ∃ a t middle, (m.runOn s).run source = ((.ok a, t), middle) ∧
      ((f a).runOn t).run middle = ((.ok b, s'), source') := by
  rw [runOn_bind] at run
  rcases hm : (m.runOn s).run source with ⟨⟨cause | a, t⟩, middle⟩
  · rw [hm] at run
    cases run
  · rw [hm] at run
    exact ⟨a, t, middle, rfl, run⟩

theorem runOn_liftM (c : Checked α) (s : σ) (source : Source) :
    ((liftM c : Changes σ α).runOn s).run source = ((c, s), source) := by
  cases c with
  | ok a => rfl
  | error cause => rfl

theorem exists_of_runOn_liftM_bind {c : Checked α} {f : α → Changes σ β} {s s' : σ} {b : β}
    {source source' : Source}
    (run : (((liftM c : Changes σ α) >>= f).runOn s).run source = ((.ok b, s'), source')) :
    ∃ a, c = .ok a ∧ ((f a).runOn s).run source = ((.ok b, s'), source') := by
  obtain ⟨a, t, middle, hcheck, hrest⟩ := exists_of_runOn_bind run
  rw [runOn_liftM] at hcheck
  obtain ⟨hpair, rfl⟩ := Prod.mk.inj hcheck
  obtain ⟨hc, rfl⟩ := Prod.mk.inj hpair
  exact ⟨a, hc, hrest⟩

theorem runOn_lift (m : StateM Source α) (s : σ) (source : Source) :
    ((liftM m : Changes σ α).runOn s).run source = ((.ok (m.run source).1, s), (m.run source).2) :=
  rfl

theorem runOn_get_bind (f : σ → Changes σ α) (s : σ) (source : Source) :
    ((get >>= f : Changes σ α).runOn s).run source = ((f s).runOn s).run source :=
  rfl

theorem runOn_attempt_bind (m : Changes τ α) (t : τ) (f : Checked α × τ → Changes σ β) (s : σ)
    (source : Source) :
    ((attempt m t >>= f).runOn s).run source =
      ((f ((m.runOn t).run source).1).runOn s).run ((m.runOn t).run source).2 := by
  rw [runOn_bind]
  rfl

/-- From the value `s` and every source with the rules, the computation gives a result and a value
that satisfy `post`, and a source with the same rules. A violation may stop it only if this is
`lenient`. -/
def Meets (rules : List Rule) (lenient : Prop) (m : Changes σ α) (s : σ) (post : α → σ → Prop) :
    Prop :=
  ∀ source : Source, source.rules = rules →
    match (m.runOn s).run source with
    | ((.ok a, s), source) => source.rules = rules ∧ post a s
    | ((.error _, _), _) => lenient

namespace Meets

variable {s : σ}

theorem pure {a : α} {post : α → σ → Prop} (h : post a s) :
    Meets rules lenient (Pure.pure a) s post :=
  fun _ hs => ⟨hs, h⟩

theorem mono {m : Changes σ α} {post post' : α → σ → Prop} (h : m.Meets rules lenient s post)
    (imp : ∀ a s, post a s → post' a s) : m.Meets rules lenient s post' := by
  intro source hs
  have := h source hs
  revert this
  rcases (m.runOn s).run source with ⟨⟨_ | a, s'⟩, source'⟩
  · exact fun hlenient => hlenient
  · exact fun ⟨hs, ha⟩ => ⟨hs, imp a s' ha⟩

theorem bind {m : Changes σ α} {f : α → Changes σ β} {mid : α → σ → Prop} {post : β → σ → Prop}
    (first : m.Meets rules lenient s mid)
    (second : ∀ a s, mid a s → (f a).Meets rules lenient s post) :
    (m >>= f).Meets rules lenient s post := by
  intro source hs
  have h := first source hs
  rw [runOn_bind]
  revert h
  rcases (m.runOn s).run source with ⟨⟨_ | a, s'⟩, source'⟩
  · exact fun hlenient => hlenient
  · rintro ⟨hs, ha⟩
    exact second a s' ha source' hs

theorem of_runOn {m : Changes σ α} {post : α → σ → Prop} (h : m.Meets rules lenient s post)
    {source source' : Source} (hs : source.rules = rules) {a : α} {s' : σ}
    (run : (m.runOn s).run source = ((.ok a, s'), source')) :
    source'.rules = rules ∧ post a s' := by
  have := h source hs
  rw [run] at this
  exact this

theorem exists_runOn {m : Changes σ α} {post : α → σ → Prop} (h : m.Meets rules lenient s post)
    (strict : ¬lenient) {source : Source} (hs : source.rules = rules) :
    ∃ a s' source', (m.runOn s).run source = ((.ok a, s'), source') ∧ source'.rules = rules ∧
      post a s' := by
  have := h source hs
  revert this
  rcases (m.runOn s).run source with ⟨⟨_ | a, s'⟩, source'⟩
  · exact fun hlenient => absurd hlenient strict
  · rintro ⟨hs, ha⟩
    exact ⟨a, s', source', rfl, hs, ha⟩

end Meets

variable {s : σ}

theorem meets_get : Meets rules lenient (get : Changes σ σ) s fun a t => s = a ∧ s = t :=
  fun _ hs => ⟨hs, rfl, rfl⟩

theorem meets_liftM {c : Checked α} (h : lenient ∨ ∃ a, c = .ok a) :
    Meets rules lenient (liftM c : Changes σ α) s fun a t => c = .ok a ∧ s = t := by
  intro source hs
  rw [runOn_liftM]
  cases c with
  | error cause => exact h.resolve_right fun ⟨_, hok⟩ => nomatch hok
  | ok a => exact ⟨hs, rfl, rfl⟩

theorem meets_modify (f : σ → σ) :
    Meets rules lenient (modify f : Changes σ PUnit) s fun _ t => t = f s :=
  fun _ hs => ⟨hs, rfl⟩

theorem runOn_draw (m : Draws α) (s : σ) (source : Source) :
    ((draw m : Changes σ α).runOn s).run source = (((m.runOn source).1, s), (m.runOn source).2) :=
  rfl

theorem meets_draw {m : Draws α} {post : α → Prop} (h : m.Meets rules lenient post) :
    Meets rules lenient (draw m) s fun a t => post a ∧ s = t := by
  intro source hs
  have hdraw := h source hs
  rw [runOn_draw]
  revert hdraw
  rcases m.runOn source with ⟨_ | a, source'⟩
  · exact fun hlenient => hlenient
  · exact fun ⟨hs, ha⟩ => ⟨hs, ha, rfl⟩

end Changes

end Equational
