import Equational.Proofs.Draws
import Equational.Supply
import Mathlib.Data.List.Perm.Basic

/-!
# Reading a supply to its end

`Supply.Runs` says of every way to read a supply to its end, with any sources between one
item and the next, that the items read satisfy some condition. It is a recursion on the
supply, so reading always comes to an end, and each construction of supplies has one law
that says what its items are.

The items of a scan are those of its parts, in the order of the parts or, if the parts are
chosen at random, in some order. `Arranged` covers both.
-/

namespace Equational

variable {α β γ : Type}

/-! ### Orders -/

/-- The same items, in the same order unless this is `random`. -/
def Arranged (random : Bool) (l l' : List α) : Prop := if random then l.Perm l' else l = l'

namespace Arranged

variable {random : Bool} {l₁ l₂ l₃ l₄ : List α}

theorem refl (l : List α) : Arranged random l l := by
  cases random with
  | true => exact List.Perm.refl l
  | false => exact Eq.refl l

theorem perm (h : Arranged random l₁ l₂) : l₁.Perm l₂ := by
  cases random with
  | true => exact h
  | false => exact .of_eq h

theorem eq (h : Arranged false l₁ l₂) : l₁ = l₂ := h

theorem trans (h : Arranged random l₁ l₂) (h' : Arranged random l₂ l₃) :
    Arranged random l₁ l₃ := by
  cases random with
  | true => exact List.Perm.trans h h'
  | false => exact Eq.trans h h'

theorem append (h : Arranged random l₁ l₂) (h' : Arranged random l₃ l₄) :
    Arranged random (l₁ ++ l₃) (l₂ ++ l₄) := by
  cases random with
  | true => exact List.Perm.append h h'
  | false =>
    obtain rfl := h.eq
    exact congrArg (l₁ ++ ·) h'.eq

theorem filter (p : α → Bool) (h : Arranged random l₁ l₂) :
    Arranged random (l₁.filter p) (l₂.filter p) := by
  cases random with
  | true => exact List.Perm.filter p h
  | false => exact congrArg (List.filter p) h.eq

theorem flatMap (f : α → List β) (h : Arranged random l₁ l₂) :
    Arranged random (l₁.flatMap f) (l₂.flatMap f) := by
  cases random with
  | true => exact List.Perm.flatMap_right f h
  | false => exact congrArg (List.flatMap f) h.eq

/-- A part can be moved to the front; if it is the first one this changes nothing. -/
theorem pick {l : List α} {i : Nat} {a : α} (ha : l[i]? = some a) (first : random = false → i = 0) :
    Arranged random (a :: l.eraseIdx i) l := by
  obtain ⟨hlt, rfl⟩ := List.getElem?_eq_some_iff.1 ha
  cases random with
  | true =>
    have hsplit : l = l.take i ++ l[i] :: l.drop (i + 1) := by
      rw [List.getElem_cons_drop, List.take_append_drop]
    have hperm : (l[i] :: (l.take i ++ l.drop (i + 1))).Perm l := by
      conv => rhs; rw [hsplit]
      exact List.perm_middle.symm
    rwa [← List.eraseIdx_eq_take_drop_succ] at hperm
  | false =>
    obtain rfl := first rfl
    cases l with
    | nil => simp at hlt
    | cons a rest => rfl

end Arranged

/-- What came up is what was expected, and each item has the property. -/
def Delivers (random : Bool) (f : α → β) (Q : α → Prop) (expected : List β) (items : List α) :
    Prop :=
  Arranged random (items.map f) expected ∧ ∀ a ∈ items, Q a

variable {rules : List Rule} {lenient : Prop}

/-! ### Runs -/

mutual
/-- However the supply is read, it comes to its end and the items satisfy `post`. A violation may
end the reading early only if this is `lenient`. -/
def Supply.Runs (rules : List Rule) (lenient : Prop) : Supply α → (List α → Prop) → Prop
  | .done _, post => post []
  | .item value _ next, post =>
    ∀ source : Source, source.rules = rules →
      (next source).Runs rules lenient fun rest => post (value :: rest)
  | .stuck _ _, _ => lenient
/-- The same for what comes after an item. -/
def Reply.Runs (rules : List Rule) (lenient : Prop) : Reply α → (List α → Prop) → Prop
  | .rest supply source, post => source.rules = rules ∧ supply.Runs rules lenient post
  | .broken _ _ _, _ => lenient
end

mutual
theorem Supply.Runs.mono {post post' : List α → Prop} (imp : ∀ l, post l → post' l) :
    {s : Supply α} → s.Runs rules lenient post → s.Runs rules lenient post'
  | .done _, h => imp [] h
  | .item value _ _, h => fun source hs =>
    Reply.Runs.mono (fun rest => imp (value :: rest)) (h source hs)
  | .stuck _ _, h => h
theorem Reply.Runs.mono {post post' : List α → Prop} (imp : ∀ l, post l → post' l) :
    {r : Reply α} → r.Runs rules lenient post → r.Runs rules lenient post'
  | .rest _ _, ⟨hs, h⟩ => ⟨hs, Supply.Runs.mono imp h⟩
  | .broken _ _ _, h => h
end

theorem Reply.Runs.because {r : Reply α} {post : List α → Prop} {cause : Violation}
    (h : lenient) : (r.because cause).Runs rules lenient post := by
  cases r with
  | rest supply source => exact h
  | broken cause left source => exact h

/-- What comes after an item, as a computation. -/
theorem Reply.meets_toDraws {next : Source → Reply α} {post : List α → Prop}
    (h : ∀ source, source.rules = rules → (next source).Runs rules lenient post) :
    (Reply.toDraws next).Meets rules lenient fun s => s.Runs rules lenient post := by
  intro source hs
  have hrun := h source hs
  simp only [Reply.toDraws, Draws.runOn, ExceptT.run, StateT.run]
  revert hrun
  cases next source with
  | rest supply source' => exact fun hrun => hrun
  | broken cause left source' => exact fun hrun => hrun

theorem Supply.runs_single {value : α} {post : List α → Prop} (h : post [value]) :
    (Supply.single value).Runs rules lenient post :=
  fun _ hs => ⟨hs, h⟩

/-! ### One supply after the other -/

mutual
theorem Supply.runs_followedBy {resize : Nat → Nat} {others : Source → Reply α} :
    {s : Supply α} → {post : List α → Prop} →
    s.Runs rules lenient (fun l => ∀ source, source.rules = rules →
      (others source).Runs rules lenient fun l' => post (l ++ l')) →
    ∀ source, source.rules = rules → (s.followedBy resize others source).Runs rules lenient post
  | .done _, _, h, source, hs => by
    rw [Supply.followedBy]
    exact h source hs
  | .item value gauge next, post, h, source, hs => by
    rw [Supply.followedBy]
    refine ⟨hs, fun source hs => ?_⟩
    exact Reply.runs_followedBy (h source hs)
  | .stuck _ _, _, h, _, hs => by
    rw [Supply.followedBy]
    exact ⟨hs, h⟩
theorem Reply.runs_followedBy {resize : Nat → Nat} {others : Source → Reply α} :
    {r : Reply α} → {post : List α → Prop} →
    r.Runs rules lenient (fun l => ∀ source, source.rules = rules →
      (others source).Runs rules lenient fun l' => post (l ++ l')) →
    (r.followedBy resize others).Runs rules lenient post
  | .rest supply source, _, h => by
    rw [Reply.followedBy]
    exact Supply.runs_followedBy h.2 source h.1
  | .broken _ _ _, _, h => by
    rw [Reply.followedBy]
    exact Reply.Runs.because h
end

/-! ### Rejecting items -/

mutual
theorem Supply.runs_reject {p : α → Bool} :
    {s : Supply α} → {post : List α → Prop} →
    s.Runs rules lenient (fun l => post (l.filter fun a => !p a)) →
    ∀ source, source.rules = rules → (s.reject p source).Runs rules lenient post
  | .done _, _, h, source, hs => by
    rw [Supply.reject]
    exact ⟨hs, h⟩
  | .item value gauge next, post, h, source, hs => by
    rw [Supply.reject]
    by_cases hp : p value = true
    · rw [if_pos hp]
      refine Reply.runs_reject ((h source hs).mono fun l hl => ?_)
      have hskip : (value :: l).filter (fun a => !p a) = l.filter fun a => !p a :=
        List.filter_cons_of_neg (by simp [hp])
      exact hskip ▸ hl
    · rw [if_neg hp]
      refine ⟨hs, fun source hs => Reply.runs_reject ((h source hs).mono fun l hl => ?_)⟩
      have hkeep : (value :: l).filter (fun a => !p a) = value :: l.filter fun a => !p a :=
        List.filter_cons_of_pos (by simp [hp])
      exact hkeep ▸ hl
  | .stuck _ _, _, h, _, _ => by
    rw [Supply.reject]
    exact h
theorem Reply.runs_reject {p : α → Bool} :
    {r : Reply α} → {post : List α → Prop} →
    r.Runs rules lenient (fun l => post (l.filter fun a => !p a)) →
    (r.reject p).Runs rules lenient post
  | .rest supply source, _, h => by
    rw [Reply.reject]
    exact Supply.runs_reject h.2 source h.1
  | .broken _ _ _, _, h => by
    rw [Reply.reject]
    exact h
end

/-! ### Scanning parts -/

namespace Delivers

variable {random : Bool} {f : α → β} {Q : α → Prop} {expected expected' : List β}
  {items items' : List α}

theorem nil : Delivers random f Q [] [] := ⟨.refl [], by simp⟩

theorem append (h : Delivers random f Q expected items)
    (h' : Delivers random f Q expected' items') :
    Delivers random f Q (expected ++ expected') (items ++ items') := by
  refine ⟨?_, fun a ha => ?_⟩
  · rw [List.map_append]
    exact h.1.append h'.1
  · rcases List.mem_append.1 ha with ha | ha
    · exact h.2 a ha
    · exact h'.2 a ha

theorem arranged (h : Delivers random f Q expected items)
    (same : Arranged random expected expected') : Delivers random f Q expected' items :=
  ⟨h.1.trans same, h.2⟩

theorem of_map_some {expected : List β}
    (h : Delivers random (fun a => some (f a)) Q (expected.map some) items) :
    Delivers random f Q expected items := by
  refine ⟨?_, h.2⟩
  have hsome : Function.Injective (some : β → Option β) := fun _ _ => Option.some.inj
  have harranged : Arranged random ((items.map f).map some) (expected.map some) := by
    rw [List.map_map]
    exact h.1
  cases random with
  | true => exact (List.map_perm_map_iff hsome).1 harranged
  | false => exact List.map_injective_iff.2 hsome harranged

end Delivers

namespace Supply

/-- A choice picks one of the parts there are, and the first one unless this is `random`. -/
def Choice.Fits (rules : List Rule) (lenient : Prop) (random : Bool) (choose : Choice) : Prop :=
  ∀ n, 0 < n → (choose n).Meets rules lenient fun i => i < n ∧ (random = false → i = 0)

theorem inOrder_fits (random : Bool) : Choice.Fits rules lenient random inOrder :=
  fun _ hn => .pure ⟨hn, fun _ => rfl⟩

theorem atRandom_fits : Choice.Fits rules lenient true atRandom :=
  fun _ hn => (Draws.meets_below hn).mono fun _ hi => ⟨hi, nofun⟩

variable {random : Bool} {choose : Choice} {items : γ → Draws (Supply α)} {f : α → β}
  {Q : α → Prop} {expected : γ → List β}

theorem meets_tryPart (fits : choose.Fits rules lenient random) {parts : List γ}
    (nonempty : 0 < parts.length)
    (h : ∀ part ∈ parts, (items part).Meets rules lenient fun s =>
      s.Runs rules lenient (Delivers random f Q (expected part))) :
    (tryPart choose items parts).Meets rules lenient fun result =>
      ∃ i part s, result = some (i, s) ∧ parts[i]? = some part ∧ (random = false → i = 0) ∧
        s.Runs rules lenient (Delivers random f Q (expected part)) := by
  refine (fits parts.length nonempty).bind fun i ⟨hlt, first⟩ => ?_
  have hpart : parts[i]? = some parts[i] := List.getElem?_eq_getElem hlt
  rw [hpart]
  refine (h parts[i] (List.getElem_mem hlt)).bind fun s hs => ?_
  exact .pure ⟨i, parts[i], s, rfl, hpart, first, hs⟩

theorem runs_scanWith {level : Level} {resize : Nat → Nat → Nat}
    (fits : choose.Fits rules lenient random) {count : Nat} {parts : List γ}
    (hcount : parts.length = count)
    (h : ∀ part ∈ parts, (items part).Meets rules lenient fun s =>
      s.Runs rules lenient (Delivers random f Q (expected part)))
    (source : Source) (hs : source.rules = rules) :
    (scanWith level choose resize items count parts source).Runs rules lenient
      (Delivers random f Q (parts.flatMap expected)) := by
  induction count generalizing parts source with
  | zero =>
    obtain rfl := List.length_eq_zero_iff.1 hcount
    exact ⟨hs, Delivers.nil⟩
  | succ count ih =>
    have htry := meets_tryPart fits (by omega) h source hs
    rw [scanWith]
    revert htry
    rcases (tryPart choose items parts).runOn source with ⟨cause | result, source'⟩
    · exact fun hlenient => hlenient
    · rintro ⟨hs', i, part, s, rfl, hpart, first, hruns⟩
      have hlt := (List.getElem?_eq_some_iff.1 hpart).1
      refine Supply.runs_followedBy (hruns.mono fun l hl source hs => ?_) source' hs'
      -- the parts that are left are scanned in the same way
      have hlength : (parts.eraseIdx i).length = count := by
        rw [List.length_eraseIdx_of_lt hlt]
        omega
      have hleft := ih hlength (fun part hmem => h part (List.mem_of_mem_eraseIdx hmem)) source hs
      refine hleft.mono fun l' hl' => ?_
      have hpick : Arranged random (expected part ++ (parts.eraseIdx i).flatMap expected)
          (parts.flatMap expected) := by
        rw [← List.flatMap_cons]
        exact (Arranged.pick hpart first).flatMap expected
      exact (hl.append hl').arranged hpick

/-- **Law of scans.** If every part delivers what is expected of it, then the scan delivers what
is expected of all parts, one after the other. -/
theorem meets_scan {level : Level} {resize : Nat → Nat → Nat}
    (fits : choose.Fits rules lenient random) {parts : List γ}
    (h : ∀ part ∈ parts, (items part).Meets rules lenient fun s =>
      s.Runs rules lenient (Delivers random f Q (expected part))) :
    (scan level choose resize items parts).Meets rules lenient fun s =>
      s.Runs rules lenient (Delivers random f Q (parts.flatMap expected)) :=
  Reply.meets_toDraws (runs_scanWith fits rfl h)

end Supply

end Equational
