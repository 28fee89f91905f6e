import Equational.Proofs.Supply

/-!
# What comes before a violation

`Supply.Runs` is about readings to the end and says nothing of the items that were read before a
violation. `Supply.Yields` does: every item that is read has the property, and a violation leaves
the supply stuck, so that no item comes after it. This holds of supplies that are made by scanning
parts, where a part that cannot be tried is a violation.
-/

namespace Equational

variable {α β γ : Type} {rules : List Rule} {Q R : α → Prop}

/-! ### Draws -/

namespace Draws

/-- From every source with the rules, the computation leaves the rules as they are, also if it
fails, and a value that it gives satisfies `post`. -/
def Lasts (rules : List Rule) (m : Draws α) (post : α → Prop) : Prop :=
  ∀ source : Source, source.rules = rules →
    (m.runOn source).2.rules = rules ∧ ∀ a, (m.runOn source).1 = .ok a → post a

/-- For a computation that cannot fail there is nothing more to say. -/
theorem Meets.lasts {m : Draws α} {post : α → Prop} (h : m.Meets rules False post) :
    m.Lasts rules post := by
  intro source fixed
  obtain ⟨a, source', hrun, hfixed, hpost⟩ := h.exists_runOn fixed
  rw [hrun]
  refine ⟨hfixed, ?_⟩
  rintro _ ⟨⟩
  exact hpost

namespace Lasts

theorem bind {m : Draws α} {f : α → Draws β} {mid : α → Prop} {post : β → Prop}
    (first : m.Lasts rules mid) (second : ∀ a, mid a → (f a).Lasts rules post) :
    (m >>= f).Lasts rules post := by
  intro source fixed
  obtain ⟨hfixed, hmid⟩ := first source fixed
  rw [runOn_bind]
  rcases hrun : m.runOn source with ⟨cause | a, source'⟩
  · rw [hrun] at hfixed
    refine ⟨hfixed, ?_⟩
    rintro _ ⟨⟩
  · rw [hrun] at hfixed hmid
    exact second a (hmid a rfl) source' hfixed

theorem mono {m : Draws α} {post post' : α → Prop} (h : m.Lasts rules post)
    (imp : ∀ a, post a → post' a) : m.Lasts rules post' :=
  fun source fixed => ⟨(h source fixed).1, fun a ha => imp a ((h source fixed).2 a ha)⟩

theorem pure {a : α} {post : α → Prop} (h : post a) : Lasts rules (Pure.pure a) post :=
  (Meets.pure h).lasts

theorem of_runOn {m : Draws α} {post : α → Prop} (h : m.Lasts rules post) {source source' : Source}
    (fixed : source.rules = rules) {answer : Checked α} (run : m.runOn source = (answer, source')) :
    source'.rules = rules ∧ ∀ a, answer = .ok a → post a := by
  have hlasts := h source fixed
  rw [run] at hlasts
  exact hlasts

theorem exists_error {m : Draws α} (h : m.Lasts rules fun _ => False) {source : Source}
    (fixed : source.rules = rules) : ∃ cause, (m.runOn source).1 = .error cause := by
  cases hrun : (m.runOn source).1 with
  | error cause => exact ⟨cause, rfl⟩
  | ok a => exact ((h source fixed).2 a hrun).elim

end Lasts

theorem lasts_liftM (c : Checked α) : Lasts rules (liftM c) fun a => c = .ok a := by
  intro source fixed
  cases c with
  | ok a => exact ⟨fixed, fun _ h => h⟩
  | error cause => exact ⟨fixed, fun _ h => h⟩

theorem lasts_below (bound : Nat) : Lasts rules (below bound) fun _ => True := by
  by_cases hbound : bound = 0
  · intro source fixed
    subst hbound
    exact ⟨fixed, fun _ _ => trivial⟩
  · have hbelow : (below bound).Meets rules False (· < bound) := meets_below (by omega)
    exact (hbelow.mono fun _ _ => trivial).lasts

end Draws

/-! ### Supplies -/

mutual
/-- Every item has the property, once a violation was met the supply is stuck, and `ends` holds if
the end can be reached. -/
def Supply.Yields (rules : List Rule) (ends : Prop) (Q : α → Prop) : Supply α → Prop
  | .done _ => ends
  | .item value _ next =>
    Q value ∧ ∀ source : Source, source.rules = rules → (next source).Yields rules ends Q
  | .stuck _ _ => True
/-- The same for what comes after an item. -/
def Reply.Yields (rules : List Rule) (ends : Prop) (Q : α → Prop) : Reply α → Prop
  | .rest supply source => source.rules = rules ∧ supply.Yields rules ends Q
  | .broken _ left source => source.rules = rules ∧ ∃ level gauge, left = .stuck level gauge
end

variable {ends : Prop}

mutual
theorem Supply.Yields.mono (imp : ∀ a, Q a → R a) :
    {supply : Supply α} → supply.Yields rules ends Q → supply.Yields rules ends R
  | .done _, h => h
  | .item value _ _, h =>
    ⟨imp value h.1, fun source fixed => Reply.Yields.mono imp (h.2 source fixed)⟩
  | .stuck _ _, _ => trivial
theorem Reply.Yields.mono (imp : ∀ a, Q a → R a) :
    {reply : Reply α} → reply.Yields rules ends Q → reply.Yields rules ends R
  | .rest _ _, h => ⟨h.1, Supply.Yields.mono imp h.2⟩
  | .broken _ _ _, h => h
end

/-- What is left after a reply without a violation is what is drawn. -/
theorem Reply.lasts_toDraws_of {P : Supply α → Prop} {next : Source → Reply α}
    (hrest : ∀ source, source.rules = rules → ∀ supply source', next source = .rest supply source' →
      source'.rules = rules ∧ P supply)
    (hbroken : ∀ source, source.rules = rules → ∀ cause left source',
      next source = .broken cause left source' → source'.rules = rules) :
    (Reply.toDraws next).Lasts rules P := by
  intro source fixed
  have hrest := hrest source fixed
  have hbroken := hbroken source fixed
  simp only [Reply.toDraws, Draws.runOn, ExceptT.run, StateT.run]
  revert hrest hbroken
  cases next source with
  | rest supply source' =>
    intro hrest _
    refine ⟨(hrest supply source' rfl).1, ?_⟩
    rintro _ ⟨⟩
    exact (hrest supply source' rfl).2
  | broken cause left source' =>
    intro _ hbroken
    refine ⟨hbroken cause left source' rfl, ?_⟩
    rintro _ ⟨⟩

theorem Reply.lasts_toDraws {next : Source → Reply α}
    (h : ∀ source, source.rules = rules → (next source).Yields rules ends Q) :
    (Reply.toDraws next).Lasts rules fun supply => supply.Yields rules ends Q := by
  apply lasts_toDraws_of
  · intro source fixed supply source' hnext
    have hyields := h source fixed
    rwa [hnext] at hyields
  · intro source fixed cause left source' hnext
    have hyields := h source fixed
    rw [hnext] at hyields
    exact hyields.1

theorem Supply.yields_single {value : α} (h : Q value) :
    (Supply.single value).Yields rules True Q :=
  ⟨h, fun _ fixed => ⟨fixed, trivial⟩⟩

mutual
/-- The others are asked for only if the end can be reached. -/
theorem Supply.Yields.followedBy {ends' : Prop} {resize : Nat → Nat} {others : Source → Reply α}
    (hothers : ends' → ∀ source, source.rules = rules → (others source).Yields rules ends Q) :
    {supply : Supply α} → supply.Yields rules ends' Q → ∀ source : Source, source.rules = rules →
    (supply.followedBy resize others source).Yields rules ends Q
  | .done _, h, source, fixed => by
    rw [Supply.followedBy]
    exact hothers h source fixed
  | .item _ _ _, h, source, fixed => by
    rw [Supply.followedBy]
    exact ⟨fixed, h.1, fun source fixed => Reply.Yields.followedBy hothers (h.2 source fixed)⟩
  | .stuck _ _, _, _, fixed => by
    rw [Supply.followedBy]
    exact ⟨fixed, trivial⟩
theorem Reply.Yields.followedBy {ends' : Prop} {resize : Nat → Nat} {others : Source → Reply α}
    (hothers : ends' → ∀ source, source.rules = rules → (others source).Yields rules ends Q) :
    {reply : Reply α} → reply.Yields rules ends' Q →
    (reply.followedBy resize others).Yields rules ends Q
  | .rest _ source, h => by
    rw [Reply.followedBy]
    exact Supply.Yields.followedBy hothers h.2 source h.1
  | .broken cause _ source, h => by
    obtain ⟨fixed, level, gauge, rfl⟩ := h
    rw [Reply.followedBy, Supply.followedBy]
    exact ⟨fixed, _, _, rfl⟩
end

mutual
/-- What is left out was looked at. -/
theorem Supply.Yields.reject (p : α → Bool) :
    {supply : Supply α} → supply.Yields rules ends Q → ∀ source : Source, source.rules = rules →
    (supply.reject p source).Yields rules ends fun a => Q a ∧ p a = false
  | .done _, h, _, fixed => by
    rw [Supply.reject]
    exact ⟨fixed, h⟩
  | .item value gauge next, h, source, fixed => by
    rw [Supply.reject]
    split
    next => exact Reply.Yields.reject p (h.2 source fixed)
    next hkept =>
      refine ⟨fixed, ⟨h.1, by simpa using hkept⟩, fun source fixed => ?_⟩
      exact Reply.Yields.reject p (h.2 source fixed)
  | .stuck _ _, _, _, fixed => by
    rw [Supply.reject]
    exact ⟨fixed, _, _, rfl⟩
theorem Reply.Yields.reject (p : α → Bool) :
    {reply : Reply α} → reply.Yields rules ends Q →
    (reply.reject p).Yields rules ends fun a => Q a ∧ p a = false
  | .rest _ source, h => by
    rw [Reply.reject]
    exact Supply.Yields.reject p h.2 source h.1
  | .broken _ _ _, h => by
    obtain ⟨fixed, level, gauge, rfl⟩ := h
    rw [Reply.reject, Supply.rejectLater]
    exact ⟨fixed, _, _, rfl⟩
end

/-! ### Scans -/

section Scan

variable {level : Level} {choose : Supply.Choice} {resize : Nat → Nat → Nat}
  {items : γ → Draws (Supply α)}

namespace Supply

/-- What comes of the part that is tried first. -/
theorem lasts_tryPart {P : Nat → Supply α → Prop} {parts : List γ}
    (hparts : (choose parts.length).Lasts rules fun i => ∀ part, parts[i]? = some part →
      (items part).Lasts rules (P i)) :
    (tryPart choose items parts).Lasts rules fun found =>
      ∀ i supply, found = some (i, supply) → P i supply := by
  refine hparts.bind fun i hi => ?_
  split
  next => exact .pure fun _ _ h => nomatch h
  next part hpart =>
    refine (hi part hpart).bind fun supply hsupply => .pure ?_
    rintro _ _ ⟨⟩
    exact hsupply

/-- A scan has the items of the part that is tried first, and then those of the scan of the parts
that are left. -/
theorem yields_scanWith {count : Nat} {post : Option (Nat × Supply α) → Prop} {parts : List γ}
    (htry : (tryPart choose items parts).Lasts rules post) (hnone : post none → ends)
    (hsome : ∀ i supply, post (some (i, supply)) → ∃ ends', supply.Yields rules ends' Q ∧
      (ends' → ∀ source, source.rules = rules →
        (scanWith level choose resize items count (parts.eraseIdx i) source).Yields rules ends Q))
    {source : Source} (fixed : source.rules = rules) :
    (scanWith level choose resize items (count + 1) parts source).Yields rules ends Q := by
  rw [scanWith]
  rcases hrun : (tryPart choose items parts).runOn source with ⟨cause | _ | ⟨i, supply⟩, source'⟩
  · exact ⟨(htry.of_runOn fixed hrun).1, _, _, rfl⟩
  · obtain ⟨hfixed, hpost⟩ := htry.of_runOn fixed hrun
    exact ⟨hfixed, hnone (hpost none rfl)⟩
  · obtain ⟨hfixed, hpost⟩ := htry.of_runOn fixed hrun
    obtain ⟨ends', hyields, hlater⟩ := hsome i supply (hpost _ rfl)
    exact hyields.followedBy hlater source' hfixed

theorem lasts_scan (hchoose : ∀ n, (choose n).Lasts rules fun _ => True) {parts : List γ}
    (hitems : ∀ part ∈ parts, (items part).Lasts rules fun supply => supply.Yields rules True Q) :
    (scan level choose resize items parts).Lasts rules fun supply =>
      supply.Yields rules True Q := by
  refine Reply.lasts_toDraws ?_
  generalize parts.length = count
  induction count generalizing parts with
  | zero => exact fun source fixed => ⟨fixed, trivial⟩
  | succ count ih =>
    intro source fixed
    have htry : (tryPart choose items parts).Lasts rules fun found =>
        ∀ i supply, found = some (i, supply) → supply.Yields rules True Q :=
      lasts_tryPart ((hchoose _).mono fun i _ part hpart =>
        hitems part (List.mem_of_getElem? hpart))
    refine yields_scanWith htry (fun _ => trivial) (fun i supply hfound => ?_) fixed
    refine ⟨True, hfound i supply rfl, fun _ => ih fun part hpart => ?_⟩
    exact hitems part (List.mem_of_mem_eraseIdx hpart)

theorem lasts_tryPart_inOrder {P : Supply α → Prop} {part : γ} (parts : List γ)
    (h : (items part).Lasts rules P) :
    (tryPart inOrder items (part :: parts)).Lasts rules fun found =>
      ∃ supply, found = some (0, supply) ∧ P supply :=
  h.bind fun supply hsupply => .pure ⟨supply, rfl, hsupply⟩

/-- In a scan in order, the parts after one whose end cannot be reached are never tried. -/
theorem lasts_scan_until (front : List γ) (part : γ) (back : List γ)
    (hfront : ∀ part ∈ front, (items part).Lasts rules fun supply => supply.Yields rules True Q)
    (hpart : (items part).Lasts rules fun supply => supply.Yields rules False Q) :
    (scan level inOrder resize items (front ++ part :: back)).Lasts rules fun supply =>
      supply.Yields rules False Q := by
  refine Reply.lasts_toDraws ?_
  obtain ⟨count, hcount⟩ : ∃ count, (front ++ part :: back).length = count + 1 :=
    ⟨front.length + back.length, by simp [Nat.add_assoc]⟩
  have hlength : front.length ≤ count := by
    simp only [List.length_append, List.length_cons] at hcount
    omega
  rw [hcount]
  clear hcount
  induction front generalizing count with
  | nil =>
    intro source fixed
    refine yields_scanWith (lasts_tryPart_inOrder back hpart) ?_ ?_ fixed
    · rintro ⟨_, h, -⟩
      cases h
    · rintro i supply ⟨_, ⟨⟩, hsupply⟩
      exact ⟨False, hsupply, fun h => h.elim⟩
  | cons first front ih =>
    intro source fixed
    have hfirst := lasts_tryPart_inOrder (front ++ part :: back) (hfront first List.mem_cons_self)
    refine yields_scanWith hfirst ?_ ?_ fixed
    · rintro ⟨_, h, -⟩
      cases h
    · rintro i supply ⟨_, ⟨⟩, hsupply⟩
      obtain ⟨count, rfl⟩ := Nat.exists_eq_succ_of_ne_zero
        (Nat.ne_of_gt (Nat.zero_lt_of_lt hlength))
      refine ⟨True, hsupply, fun _ => ih ?_ count (Nat.le_of_succ_le_succ hlength)⟩
      exact fun part hpart => hfront part (List.mem_cons_of_mem _ hpart)

theorem lasts_scan_false {parts : List γ} (nonempty : parts ≠ [])
    (hfirst : (choose parts.length).Lasts rules fun i =>
      ∃ part, parts[i]? = some part ∧ (items part).Lasts rules fun _ => False) :
    (scan level choose resize items parts).Lasts rules fun _ => False := by
  have htry : (tryPart choose items parts).Lasts rules fun _ => False := by
    refine hfirst.bind fun i ⟨part, hpart, hfails⟩ => ?_
    rw [hpart]
    exact hfails.bind fun _ h => h.elim
  obtain ⟨count, hcount⟩ : ∃ count, parts.length = count + 1 :=
    Nat.exists_eq_succ_of_ne_zero (mt List.length_eq_zero_iff.1 nonempty)
  intro source fixed
  rcases hrun : (tryPart choose items parts).runOn source with ⟨cause | found, source'⟩
  · have hscan : (scan level choose resize items parts).runOn source = (.error cause, source') := by
      simp only [scan, Reply.toDraws, Draws.runOn, ExceptT.run, StateT.run, hcount,
        scanWith] at hrun ⊢
      rw [hrun]
    rw [hscan]
    refine ⟨(htry.of_runOn fixed hrun).1, ?_⟩
    rintro _ ⟨⟩
  · exact ((htry.of_runOn fixed hrun).2 found rfl).elim

end Supply

end Scan

end Equational
