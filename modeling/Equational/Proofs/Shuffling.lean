import Equational.Proofs.Draws
import Mathlib

/-!
# Shuffling is fair

Shuffling asks for one draw after another, with bounds that are known beforehand, and exchanges
items as the draws say. So it is a function of the draws (`Shuffle.shuffle_eq`). The last place gets
its item by the first draw and keeps it, and the places before it are arranged by the other draws.
If all items are different then each draw can be told from where the items have gone, so every order
belongs to one sequence of draws (`Shuffle.existsUnique_draws`). If the draws are independent and
uniform, all orders have the same probability (`Shuffle.unbiased`).
-/

namespace Equational

namespace Shuffle

variable {α : Type}

/-! ### What is asked for -/

/-- The bounds of the draws for `n` items, from `n` down to two. -/
def bounds (n : Nat) : List Nat := (List.range' 2 (n - 1)).reverse

theorem bounds_one : bounds 1 = [] := rfl

theorem bounds_add_two (n : Nat) : bounds (n + 2) = (n + 2) :: bounds (n + 1) := by
  simp only [bounds, Nat.add_sub_cancel, Nat.reduceSubDiff, List.range'_1_concat,
    List.reverse_append, List.reverse_singleton, List.singleton_append, Nat.add_comm 2]

theorem bounds_pred_add_one (n : Nat) : bounds (n - 1 + 1) = bounds n := by
  cases n with
  | zero => rfl
  | succ last => rfl

/-- Draws that are below the bounds for `n` items. -/
def FitsBounds (n : Nat) (draws : List Nat) : Prop := List.Forall₂ (· < ·) draws (bounds n)

/-- Exchanges items as the draws say, from the place with number `last` downwards. -/
def exchange : (last : Nat) → List Nat → Array α → Array α
  | last + 1, i :: draws, items => exchange last draws (items.swapIfInBounds (last + 1) i)
  | _, _, items => items

section Asking

variable {m : Type → Type} [Monad m] [LawfulMonad m] [MonadExceptOf Violation m]
  {draw : Nat → m Nat}

/-- Whatever is drawn is below the bound that was asked for. -/
def DrawsInRange (draw : Nat → m Nat) : Prop :=
  ∀ bound, 0 < bound → ∃ drawn : m (Fin bound), Fin.val <$> drawn = draw bound

theorem shuffleUpTo_eq (inRange : DrawsInRange draw) {last : Nat} {items : Array α}
    (fits : last = 0 ∨ last < items.size) :
    shuffleUpTo draw last items =
      (fun draws => exchange last draws items) <$> (bounds (last + 1)).mapM draw := by
  induction last generalizing items with
  | zero => simp [shuffleUpTo, bounds_one, exchange]
  | succ last ih =>
    obtain ⟨drawn, hdrawn⟩ := inRange (last + 2) (by omega)
    rw [shuffleUpTo, bounds_add_two, List.mapM_cons, ← hdrawn]
    simp only [bind_map_left, map_bind, bind_pure_comp, Functor.map_map]
    apply bind_congr
    intro i
    have hin : last + 1 < items.size ∧ i.1 < items.size := by omega
    have hswap : items.swap (last + 1) i hin.1 hin.2 = items.swapIfInBounds (last + 1) i := by
      rw [Array.swapIfInBounds_def, dif_pos hin.1, dif_pos hin.2]
    rw [dif_pos hin, hswap]
    apply ih
    rw [Array.size_swapIfInBounds]
    omega

/-- **What shuffling asks for** are the bounds in order, and then the items are exchanged as the
draws say. -/
theorem shuffle_eq (inRange : DrawsInRange draw) (items : Array α) :
    shuffle draw items =
      (fun draws => exchange (items.size - 1) draws items) <$> (bounds items.size).mapM draw := by
  rw [shuffle, shuffleUpTo_eq inRange (by omega), bounds_pred_add_one]

end Asking

/-! ### Every order by one sequence of draws -/

section Orders

variable {last : Nat} {draws : List Nat} {items order : Array α}

theorem swapIfInBounds_perm (items : Array α) (i j : Nat) :
    (items.swapIfInBounds i j).toList.Perm items.toList := by
  rw [Array.swapIfInBounds_def]
  split
  · split
    · exact (Array.swap_perm _ _).toList
    · rfl
  · rfl

theorem getElem?_swapIfInBounds {i j : Nat} (hi : i < items.size) (hj : j < items.size)
    (k : Nat) :
    (items.swapIfInBounds i j)[k]? =
      if k = i then items[j]? else if k = j then items[i]? else items[k]? := by
  rw [Array.swapIfInBounds_def, dif_pos hi, dif_pos hj]
  grind

theorem exchange_perm (last : Nat) (draws : List Nat) (items : Array α) :
    (exchange last draws items).toList.Perm items.toList := by
  induction last generalizing draws items with
  | zero => rfl
  | succ last ih =>
    cases draws with
    | nil => rfl
    | cons i draws => exact (ih draws _).trans (swapIfInBounds_perm items (last + 1) i)

/-- A place behind the last one keeps its item. -/
theorem getElem?_exchange (fits : FitsBounds (last + 1) draws)
    (within : last = 0 ∨ last < items.size) {k : Nat} (behind : last < k) :
    (exchange last draws items)[k]? = items[k]? := by
  induction last generalizing draws items with
  | zero => rfl
  | succ last ih =>
    rw [FitsBounds, bounds_add_two] at fits
    cases fits with
    | @cons i _ draws _ hi hrest =>
      have hlast : last + 1 < items.size := by omega
      have hswap := getElem?_swapIfInBounds hlast (show i < items.size by omega) k
      rw [if_neg (by omega), if_neg (by omega)] at hswap
      rw [exchange, ← hswap]
      apply ih hrest
      · rw [Array.size_swapIfInBounds]
        omega
      · omega

/-- Two orders of the same items that agree behind the first place are the same. -/
theorem eq_of_perm_of_getElem? (perm : order.toList.Perm items.toList)
    (same : ∀ k, 0 < k → order[k]? = items[k]?) : order = items := by
  obtain ⟨xs⟩ := order
  obtain ⟨ys⟩ := items
  cases xs with
  | nil =>
    have hnil : ys = [] := List.nil_perm.1 perm
    rw [hnil]
  | cons x xs =>
    cases ys with
    | nil => exact absurd perm.length_eq (by simp)
    | cons y ys =>
      have hrest : xs = ys := by
        apply List.ext_getElem?
        intro k
        simpa using same (k + 1) (Nat.succ_pos k)
      subst hrest
      have hfirst : [x].Perm [y] := (List.perm_append_right_iff xs).1 perm
      rw [List.singleton_perm_singleton.1 hfirst]

theorem place_inj (distinct : items.toList.Nodup) {i j : Nat} (hi : i < items.size)
    (same : items[i]? = items[j]?) : i = j := by
  rw [← Array.getElem?_toList, ← Array.getElem?_toList] at same
  exact (List.getElem?_inj (by rwa [Array.length_toList]) distinct).1 same

/-- The item that has come to the last place was at one place before, and this was not behind the
last one. -/
theorem exists_place (distinct : items.toList.Nodup) (perm : order.toList.Perm items.toList)
    (within : last < items.size) (same : ∀ k, last < k → order[k]? = items[k]?) :
    ∃ i ≤ last, items[i]? = order[last]? := by
  have hsize : order.size = items.size := by simpa using perm.length_eq
  have hlast : last < order.size := by omega
  have hmem : order[last] ∈ items.toList := perm.subset (Array.getElem_mem_toList hlast)
  obtain ⟨i, hi⟩ := List.mem_iff_getElem?.1 hmem
  rw [Array.getElem?_toList] at hi
  refine ⟨i, ?_, by rw [hi, Array.getElem?_eq_getElem hlast]⟩
  by_contra hbehind
  -- Otherwise the item is in two places of the order.
  have htwice : order[last]? = order[i]? := by
    rw [same i (by omega), hi, Array.getElem?_eq_getElem hlast]
  have heq : last = i := place_inj (perm.nodup_iff.2 distinct) hlast htwice
  omega

/-- **Every order belongs to one sequence of draws**, if all items are different. -/
theorem existsUnique_draws (distinct : items.toList.Nodup)
    (perm : order.toList.Perm items.toList) (within : last = 0 ∨ last < items.size)
    (same : ∀ k, last < k → order[k]? = items[k]?) :
    ∃! draws, FitsBounds (last + 1) draws ∧ exchange last draws items = order := by
  induction last generalizing items with
  | zero =>
    refine ⟨[], ⟨.nil, (eq_of_perm_of_getElem? perm same).symm⟩, ?_⟩
    rintro draws ⟨fits, -⟩
    exact List.forall₂_nil_right_iff.1 fits
  | succ last ih =>
    have hlast : last + 1 < items.size := by omega
    obtain ⟨i, hi, hplace⟩ := exists_place distinct perm hlast same
    have hperm := swapIfInBounds_perm items (last + 1) i
    have hwithin : last = 0 ∨ last < (items.swapIfInBounds (last + 1) i).size := by
      rw [Array.size_swapIfInBounds]
      omega
    have hsame : ∀ k, last < k → order[k]? = (items.swapIfInBounds (last + 1) i)[k]? := by
      intro k hk
      rw [getElem?_swapIfInBounds hlast (by omega)]
      split
      next heq => rw [heq, hplace]
      next hne => rw [if_neg (by omega), same k (by omega)]
    obtain ⟨draws, ⟨fits, hdraws⟩, unique⟩ :=
      ih (hperm.nodup_iff.2 distinct) (perm.trans hperm.symm) hwithin hsame
    refine ⟨i :: draws, ⟨?_, hdraws⟩, ?_⟩
    · rw [FitsBounds, bounds_add_two]
      exact .cons (by omega) fits
    · rintro other ⟨fits', hother⟩
      rw [FitsBounds, bounds_add_two] at fits'
      cases fits' with
      | @cons i' _ draws' _ hi' fits' =>
        -- The last place shows which item was drawn first.
        have hshown : order[last + 1]? = items[i']? := by
          rw [← hother, exchange, getElem?_exchange fits' _ (Nat.lt_succ_self last),
            getElem?_swapIfInBounds hlast (by omega), if_pos rfl]
          rw [Array.size_swapIfInBounds]
          omega
        have hfirst : i = i' := place_inj distinct (by omega) (hplace.trans hshown)
        subst hfirst
        rw [unique draws' ⟨fits', hother⟩]

/-- The same from the start. -/
theorem existsUnique_draws_of_perm (distinct : items.toList.Nodup)
    (perm : order.toList.Perm items.toList) :
    ∃! draws, FitsBounds items.size draws ∧ exchange (items.size - 1) draws items = order := by
  have hsize : order.size = items.size := by simpa using perm.length_eq
  have same : ∀ k, items.size - 1 < k → order[k]? = items[k]? := by
    intro k hk
    rw [Array.getElem?_eq_none (by omega), Array.getElem?_eq_none (by omega)]
  have hdraws := existsUnique_draws distinct perm (by omega) same
  simpa only [FitsBounds, bounds_pred_add_one] using hdraws

end Orders

/-! ### Draws with a state -/

section State

variable {σ : Type} {draw : Nat → ExceptT Violation (StateM σ) Nat}

/-- Whatever the state is, a number below the bound is drawn, if there is one. -/
def Returns (draw : Nat → ExceptT Violation (StateM σ) Nat) : Prop :=
  ∀ bound s, 0 < bound → ∃ i < bound, ∃ s', (draw bound).run.run s = (.ok i, s')

theorem Returns.drawsInRange (returns : Returns draw) : DrawsInRange draw := by
  intro bound pos
  choose i hi s' hrun using fun s => returns bound s pos
  refine ⟨ExceptT.mk fun s => (.ok ⟨i s, hi s⟩, s' s), ?_⟩
  funext s
  exact (hrun s).symm

theorem pos_of_mem_bounds {n bound : Nat} (h : bound ∈ bounds n) : 0 < bound := by
  rw [bounds, List.mem_reverse, List.mem_range'_1] at h
  omega

/-- Asking for one bound after another gives draws below them. -/
theorem Returns.exists_run_mapM (returns : Returns draw) {asked : List Nat}
    (pos : ∀ bound ∈ asked, 0 < bound) (s : σ) :
    ∃ draws s', List.Forall₂ (· < ·) draws asked ∧
      (asked.mapM draw).run.run s = (.ok draws, s') := by
  induction asked generalizing s with
  | nil => exact ⟨[], s, .nil, rfl⟩
  | cons bound asked ih =>
    obtain ⟨i, hi, s₁, hfirst⟩ := returns bound s (pos bound List.mem_cons_self)
    obtain ⟨draws, s', fits, hrest⟩ := ih (fun b h => pos b (List.mem_cons_of_mem _ h)) s₁
    refine ⟨i :: draws, s', .cons hi fits, ?_⟩
    rw [List.mapM_cons, ExceptT.run_bind, StateT.run_bind, hfirst]
    show ((asked.mapM draw >>= fun rest => pure (i :: rest)).run).run s₁ = _
    rw [ExceptT.run_bind, StateT.run_bind, hrest]
    rfl

end State

/-! ### Uniform draws -/

section Uniform

open scoped ENNReal Nat

/-- A number below the bound, all of them equally likely. -/
noncomputable def uniformBelow : Nat → PMF Nat
  | 0 => PMF.pure 0
  | n + 1 => (PMF.uniformOfFintype (Fin (n + 1))).map Fin.val

noncomputable def uniformDraw (bound : Nat) : ExceptT Violation PMF Nat :=
  ExceptT.lift (uniformBelow bound)

theorem uniformBelow_apply {bound : Nat} (pos : 0 < bound) (i : Nat) :
    uniformBelow bound i = if i < bound then (bound : ℝ≥0∞)⁻¹ else 0 := by
  obtain ⟨n, rfl⟩ : ∃ n, bound = n + 1 := ⟨bound - 1, by omega⟩
  rw [uniformBelow, PMF.map_apply, tsum_fintype]
  simp only [PMF.uniformOfFintype_apply, Fintype.card_fin]
  split
  next hi =>
    rw [Finset.sum_eq_single (⟨i, hi⟩ : Fin (n + 1))]
    · simp
    · intro j _ hne
      rw [if_neg fun h => hne (Fin.ext h.symm)]
    · simp
  next hi =>
    apply Finset.sum_eq_zero
    intro j _
    rw [if_neg (by omega)]

theorem drawsInRange_uniformDraw : DrawsInRange uniformDraw := by
  intro bound pos
  obtain ⟨n, rfl⟩ : ∃ n, bound = n + 1 := ⟨bound - 1, by omega⟩
  refine ⟨ExceptT.lift (PMF.uniformOfFintype (Fin (n + 1))), ?_⟩
  apply ExceptT.ext
  rw [ExceptT.run_map, uniformDraw, ExceptT.run_lift, ExceptT.run_lift, uniformBelow,
    ← PMF.monad_map_eq_map, Functor.map_map, Functor.map_map]
  rfl

theorem mapM_lift {m : Type → Type} [Monad m] [LawfulMonad m] {β γ ε : Type} (f : β → m γ)
    (xs : List β) :
    xs.mapM (fun x => (ExceptT.lift (f x) : ExceptT ε m γ)) = ExceptT.lift (xs.mapM f) := by
  induction xs with
  | nil => simp
  | cons x xs ih =>
    apply ExceptT.ext
    simp [ih, Except.map]

theorem mapM_cons_eq_bind {β γ : Type} (f : β → PMF γ) (x : β) (xs : List β) :
    (x :: xs).mapM f = (f x).bind fun y => (xs.mapM f).map (List.cons y) := by
  rw [List.mapM_cons]
  rfl

theorem mapM_cons_apply {β γ : Type} (f : β → PMF γ) (x : β) (xs : List β) (y : γ) (ys : List γ) :
    (x :: xs).mapM f (y :: ys) = f x y * xs.mapM f ys := by
  rw [mapM_cons_eq_bind, PMF.bind_apply, tsum_eq_single y]
  · rw [PMF.map_apply, tsum_eq_single ys]
    · rw [if_pos rfl]
    · intro other hne
      rw [if_neg (by simpa using hne.symm)]
  · intro other hne
    rw [PMF.map_apply]
    simp [hne.symm]

theorem mapM_cons_apply_nil {β γ : Type} (f : β → PMF γ) (x : β) (xs : List β) :
    (x :: xs).mapM f [] = 0 := by
  rw [mapM_cons_eq_bind]
  simp

theorem mapM_uniformBelow_of_fits {draws asked : List Nat}
    (fits : List.Forall₂ (· < ·) draws asked) :
    asked.mapM uniformBelow draws = (asked.prod : ℝ≥0∞)⁻¹ := by
  induction fits with
  | nil =>
    have hnil : ([] : List Nat).mapM uniformBelow = PMF.pure [] := rfl
    rw [hnil, PMF.pure_apply_self]
    simp
  | @cons i bound draws asked hi fits ih =>
    rw [mapM_cons_apply, ih, uniformBelow_apply (by omega), if_pos hi, List.prod_cons, Nat.cast_mul,
      ENNReal.mul_inv (.inr (ENNReal.natCast_ne_top _)) (.inl (ENNReal.natCast_ne_top _))]

theorem mapM_uniformBelow_of_not_fits {draws asked : List Nat} (pos : ∀ bound ∈ asked, 0 < bound)
    (misfit : ¬List.Forall₂ (· < ·) draws asked) : asked.mapM uniformBelow draws = 0 := by
  induction asked generalizing draws with
  | nil =>
    have hne : draws ≠ [] := by
      rintro rfl
      exact misfit .nil
    exact PMF.pure_apply_of_ne _ _ hne
  | cons bound asked ih =>
    cases draws with
    | nil => exact mapM_cons_apply_nil uniformBelow bound asked
    | cons i draws =>
      rw [mapM_cons_apply, uniformBelow_apply (pos bound List.mem_cons_self)]
      by_cases hi : i < bound
      · have hrest : asked.mapM uniformBelow draws = 0 :=
          ih (fun b h => pos b (List.mem_cons_of_mem _ h)) fun fits => misfit (.cons hi fits)
        rw [hrest, mul_zero]
      · rw [if_neg hi, zero_mul]

theorem prod_bounds (n : Nat) : (bounds n).prod = n ! := by
  cases n with
  | zero => rfl
  | succ last =>
    induction last with
    | zero => rfl
    | succ last ih => rw [bounds_add_two, List.prod_cons, ih, Nat.factorial_succ (last + 1)]

/-- An order that belongs to one sequence of draws is as likely as this sequence. -/
theorem shuffle_uniformDraw_apply {items order : Array α} {draws : List Nat}
    (fits : FitsBounds items.size draws) (hdraws : exchange (items.size - 1) draws items = order)
    (unique : ∀ other, FitsBounds items.size other →
      exchange (items.size - 1) other items = order → other = draws) :
    (shuffle uniformDraw items).run (.ok order) = (items.size ! : ℝ≥0∞)⁻¹ := by
  have hrun : (shuffle uniformDraw items).run =
      ((bounds items.size).mapM uniformBelow).map fun draws =>
        Except.ok (exchange (items.size - 1) draws items) := by
    have hmapM : (bounds items.size).mapM uniformDraw =
        ExceptT.lift ((bounds items.size).mapM uniformBelow) := mapM_lift uniformBelow _
    rw [shuffle_eq drawsInRange_uniformDraw, ExceptT.run_map, hmapM, ExceptT.run_lift,
      Functor.map_map]
    rfl
  rw [hrun, PMF.map_apply, tsum_eq_single draws]
  · rw [if_pos (by rw [hdraws]), mapM_uniformBelow_of_fits fits, prod_bounds]
  · intro other hne
    by_cases fits' : FitsBounds items.size other
    · rw [if_neg]
      intro h
      exact hne (unique other fits' (Except.ok.inj h).symm)
    · rw [mapM_uniformBelow_of_not_fits (fun _ => pos_of_mem_bounds) fits', ite_self]

/-- **Shuffling is fair.** There is a function from sequences of draws to orders such that shuffling
asks for a draw below `n`, then below `n - 1` and so on down to two, for nothing else, and gives the
order that belongs to the draws, whatever the draws are made from. It never fails, and all items are
still there. If the items are different then every order belongs to exactly one sequence of draws
below the bounds, and all orders are equally likely if the draws are independent and uniform. -/
theorem unbiased (items : Array α) :
    ∃ arrange : List Nat → Array α,
      (∀ (σ : Type) (draw : Nat → ExceptT Violation (StateM σ) Nat), Returns draw →
        ∀ s, ∃ draws s', FitsBounds items.size draws ∧
          ((bounds items.size).mapM draw).run.run s = (.ok draws, s') ∧
          (shuffle draw items).run.run s = (.ok (arrange draws), s')) ∧
      (∀ draws, FitsBounds items.size draws → (arrange draws).toList.Perm items.toList) ∧
      (items.toList.Nodup → ∀ order : Array α, order.toList.Perm items.toList →
        (∃! draws, FitsBounds items.size draws ∧ arrange draws = order) ∧
        (shuffle uniformDraw items).run (.ok order) = (items.size ! : ℝ≥0∞)⁻¹) := by
  refine ⟨fun draws => exchange (items.size - 1) draws items, ?_, ?_, ?_⟩
  · intro σ draw returns s
    obtain ⟨draws, s', fits, hasked⟩ := returns.exists_run_mapM (fun _ => pos_of_mem_bounds) s
    refine ⟨draws, s', fits, hasked, ?_⟩
    rw [shuffle_eq returns.drawsInRange, ExceptT.run_map, StateT.run_map, hasked]
    rfl
  · intro draws _
    exact exchange_perm (items.size - 1) draws items
  · intro distinct order perm
    have hunique := existsUnique_draws_of_perm distinct perm
    refine ⟨hunique, ?_⟩
    obtain ⟨draws, ⟨fits, hdraws⟩, unique⟩ := hunique
    exact shuffle_uniformDraw_apply fits hdraws fun other fits' h => unique other ⟨fits', h⟩

theorem returns_below : Returns Draws.below := by
  intro bound source pos
  exact ⟨_, Nat.mod_lt _ pos, _, Draws.runOn_below pos source⟩

/-- Three items are shuffled by a kernel with a new random source, and by uniform draws. -/
theorem unbiased_three :
    Returns Draws.below ∧ #[0, 1, 2].toList.Nodup ∧ #[2, 0, 1].toList.Perm #[0, 1, 2].toList ∧
      (∃ draws order source, FitsBounds 3 draws ∧
        ([3, 2].mapM Draws.below).runOn {} = (.ok draws, source) ∧
        (shuffle Draws.below #[0, 1, 2]).runOn {} = (.ok order, source) ∧
        order.toList.Perm #[0, 1, 2].toList) ∧
      (shuffle uniformDraw #[0, 1, 2]).run (.ok #[2, 0, 1]) = (6 : ℝ≥0∞)⁻¹ := by
  have distinct : #[0, 1, 2].toList.Nodup := by decide
  have perm : #[2, 0, 1].toList.Perm #[0, 1, 2].toList := by decide
  obtain ⟨arrange, runs, keeps, orders⟩ := unbiased #[0, 1, 2]
  obtain ⟨draws, source, fits, hasked, hshuffled⟩ := runs _ Draws.below returns_below {}
  refine ⟨returns_below, distinct, perm, ?_, ?_⟩
  · exact ⟨draws, arrange draws, source, fits, hasked, hshuffled, keeps draws fits⟩
  · exact (orders distinct #[2, 0, 1] perm).2

end Uniform

end Shuffle

end Equational
