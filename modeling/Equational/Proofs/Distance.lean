import Equational.Heuristic.Distance
import Equational.Proofs.Pairing
import Equational.Proofs.Renaming

/-!
# Laws of the distance of terms

For exact costs the distance is the one function with the equations in `Term.IsEditDistance`, where
arguments are paired in the cheapest of all ways. Read from right to left it has the same equations,
so it is symmetric. Names of variables never matter, for costs of any kind. So equivalent equations
are at distance nothing (`Equation.distance_of_equivalent`).
-/

namespace Equational

/-! ### Costs of any kind -/

section AnyCost

variable {α : Type}

/-- The matrix of all pairs, read by columns. -/
theorem transposed_map {β γ : Type} (d : β → γ → α) (bs : List β) (cs : List γ) :
    transposed cs.length (bs.map fun b => cs.map fun c => d b c) =
      cs.map fun c => bs.map fun b => d b c := by
  apply List.ext_getElem?
  intro j
  by_cases hj : j < cs.length
  · have hcolumn : (bs.map fun b => cs.map fun c => d b c).filterMap (fun row => row[j]?) =
        bs.map fun b => d b cs[j] := by
      rw [List.filterMap_map, ← List.filterMap_eq_map]
      simp [hj]
    simp only [transposed, List.getElem?_map, List.getElem?_range hj, Option.map_some, hcolumn,
      List.getElem?_eq_getElem hj]
  · have hlength : (transposed cs.length (bs.map fun b => cs.map fun c => d b c)).length ≤ j := by
      simpa [transposed] using hj
    rw [List.getElem?_eq_none hlength, List.getElem?_eq_none (by simpa using hj)]

namespace Term

variable [Cost α] (mismatch : α)

theorem distances_eq_map (ts us : List Term) :
    distances mismatch ts us = ts.map fun t => us.map fun u => t.distance mismatch u := by
  induction ts with
  | nil => rfl
  | cons t ts ih => rw [distances, ih, List.map_cons]

theorem distance_app (f g : Nat) (ts us : List Term) :
    (Term.app f ts).distance mismatch (.app g us) =
      Cost.add (if f = g then Cost.zero else mismatch)
        (pairingCost ts.length us.length
          (ts.map fun t => us.map fun u => t.distance mismatch u)) := by
  rw [distance, distances_eq_map]

theorem distance_rename_left (ρ : Nat → Nat) (t u : Term) :
    (t.rename ρ).distance mismatch u = t.distance mismatch u := by
  induction t generalizing u with
  | var id => cases u <;> rfl
  | const symbol => cases u <;> rfl
  | app f ts ih =>
    cases u with
    | var id => rw [rename_app, distance, distance]
    | const symbol => rw [rename_app, distance, distance]
    | app g us =>
      have hrows : ((ts.map (rename ρ)).map fun t => us.map fun u => t.distance mismatch u) =
          ts.map fun t => us.map fun u => t.distance mismatch u := by
        rw [List.map_map]
        exact List.map_congr_left fun t ht => List.map_congr_left fun u _ => ih t ht u
      rw [rename_app, distance_app, distance_app, List.length_map, hrows]

theorem distance_rename_right (ρ : Nat → Nat) (t u : Term) :
    t.distance mismatch (u.rename ρ) = t.distance mismatch u := by
  induction t generalizing u with
  | var id =>
    cases u with
    | app g us => rw [rename_app, distance, distance] <;> simp
    | _ => rfl
  | const symbol =>
    cases u with
    | app g us => rw [rename_app, distance, distance]
    | _ => rfl
  | app f ts ih =>
    cases u with
    | var id => rfl
    | const symbol => rfl
    | app g us =>
      have hrows : (ts.map fun t => (us.map (rename ρ)).map fun u => t.distance mismatch u) =
          ts.map fun t => us.map fun u => t.distance mismatch u := by
        refine List.map_congr_left fun t ht => ?_
        rw [List.map_map]
        exact List.map_congr_left fun u _ => ih t ht u
      rw [rename_app, distance_app, distance_app, List.length_map, hrows]

end Term

end AnyCost

/-! ### Exact costs -/

namespace Term

/-- What it can cost to pair the members of two lists, the shorter one with different members of the
longer one. -/
def pairingCosts (d : Term → Term → ℚ≥0) (ts us : List Term) : Set ℚ≥0 :=
  if us.length ≤ ts.length then
    Set.range fun f : Fin us.length ↪ Fin ts.length => ∑ j, d (ts.get (f j)) (us.get j)
  else Set.range fun f : Fin ts.length ↪ Fin us.length => ∑ i, d (ts.get i) (us.get (f i))

/-- The equations of the edit distance. -/
structure IsEditDistance (mismatch : ℚ≥0) (d : Term → Term → ℚ≥0) : Prop where
  var_var : ∀ i j, d (.var i) (.var j) = 0
  var_left : ∀ i u, (∀ j, u ≠ .var j) → d (.var i) u = 1
  var_right : ∀ t j, (∀ i, t ≠ .var i) → d t (.var j) = 1
  const_const : ∀ a b, d (.const a) (.const b) = if a = b then 0 else mismatch
  const_app : ∀ a g us, d (.const a) (.app g us) = mismatch
  app_const : ∀ f ts b, d (.app f ts) (.const b) = mismatch
  app_app : ∀ f g ts us, ∃ least, IsLeast (pairingCosts d ts us) least ∧
    d (.app f ts) (.app g us) = (if f = g then 0 else mismatch) + least

variable {mismatch : ℚ≥0} {d d' : Term → Term → ℚ≥0}

theorem entry_map_map (d : Term → Term → ℚ≥0) {ts us : List Term} (i : Fin ts.length)
    (j : Fin us.length) :
    Pairing.entry (ts.map fun t => us.map fun u => d t u) i j = d (ts.get i) (us.get j) := by
  simp [Pairing.entry]

theorem isLeast_leastCost_map_map (d : Term → Term → ℚ≥0) {ts us : List Term}
    (enough : us.length ≤ ts.length) :
    IsLeast (Set.range fun f : Fin us.length ↪ Fin ts.length => ∑ j, d (ts.get (f j)) (us.get j))
      (Pairing.leastCost (ts.map fun t => us.map fun u => d t u) us.length) := by
  have hsize : (ts.map fun t => us.map fun u => d t u).length = ts.length := List.length_map _
  have hleast := Pairing.isLeast_leastCost hsize (by simp) enough
  simpa only [entry_map_map] using hleast

theorem isLeast_pairingCost (d : Term → Term → ℚ≥0) (ts us : List Term) :
    IsLeast (pairingCosts d ts us)
      (pairingCost ts.length us.length (ts.map fun t => us.map fun u => d t u)) := by
  rw [pairingCosts, pairingCost]
  split
  next hle => exact isLeast_leastCost_map_map d hle
  next hlt =>
    rw [transposed_map]
    exact isLeast_leastCost_map_map (fun u t => d t u) (Nat.le_of_not_le hlt)

theorem isEditDistance_distance (mismatch : ℚ≥0) :
    IsEditDistance mismatch (distance mismatch) where
  var_var _ _ := rfl
  var_left i u hu := by
    cases u with
    | var j => exact absurd rfl (hu j)
    | _ => rfl
  var_right t j ht := by
    cases t with
    | var i => exact absurd rfl (ht i)
    | _ => rfl
  const_const _ _ := rfl
  const_app _ _ _ := rfl
  app_const _ _ _ := rfl
  app_app f g ts us := ⟨_, isLeast_pairingCost (distance mismatch) ts us, distance_app _ f g ts us⟩

theorem pairingCosts_congr {ts us : List Term} (same : ∀ t ∈ ts, ∀ u ∈ us, d t u = d' t u) :
    pairingCosts d ts us = pairingCosts d' ts us := by
  have hget (i : Fin ts.length) (j : Fin us.length) :
      d (ts.get i) (us.get j) = d' (ts.get i) (us.get j) :=
    same _ (List.get_mem ts i) _ (List.get_mem us j)
  simp only [pairingCosts, hget]

/-- **The equations determine the distance.** -/
theorem IsEditDistance.eq (h : IsEditDistance mismatch d) (h' : IsEditDistance mismatch d')
    (t u : Term) : d t u = d' t u := by
  induction t generalizing u with
  | var i =>
    cases u with
    | var j => rw [h.var_var, h'.var_var]
    | _ => rw [h.var_left i _ (by simp), h'.var_left i _ (by simp)]
  | const a =>
    cases u with
    | var j => rw [h.var_right _ j (by simp), h'.var_right _ j (by simp)]
    | const b => rw [h.const_const, h'.const_const]
    | app g us => rw [h.const_app, h'.const_app]
  | app f ts ih =>
    cases u with
    | var j => rw [h.var_right _ j (by simp), h'.var_right _ j (by simp)]
    | const b => rw [h.app_const, h'.app_const]
    | app g us =>
      obtain ⟨least, isLeast, heq⟩ := h.app_app f g ts us
      obtain ⟨least', isLeast', heq'⟩ := h'.app_app f g ts us
      rw [pairingCosts_congr fun t ht u _ => ih t ht u] at isLeast
      rw [heq, heq', isLeast.unique isLeast']

/-- If there are equally many rows and columns, a pairing can be read backwards. -/
theorem exists_sum_inverse {n m : Nat} (same : n = m) (matrix : Fin n → Fin m → ℚ≥0)
    (f : Fin n ↪ Fin m) :
    ∃ g : Fin m ↪ Fin n, ∑ j, matrix (g j) j = ∑ i, matrix i (f i) := by
  have hbijective : Function.Bijective f :=
    (Fintype.bijective_iff_injective_and_card f).2 ⟨f.injective, by simp [same]⟩
  let e : Fin n ≃ Fin m := Equiv.ofBijective f hbijective
  refine ⟨e.symm.toEmbedding, ?_⟩
  calc ∑ j, matrix (e.symm j) j = ∑ i, matrix (e.symm (e i)) (e i) :=
        (Equiv.sum_comp e fun j => matrix (e.symm j) j).symm
    _ = ∑ i, matrix i (f i) := by simp [e]

/-- Pairing the second list with the first costs the same. -/
theorem pairingCosts_swap (d : Term → Term → ℚ≥0) (ts us : List Term) :
    pairingCosts (fun t u => d u t) us ts = pairingCosts d ts us := by
  simp only [pairingCosts]
  rcases Nat.lt_trichotomy ts.length us.length with hlt | heq | hgt
  · rw [if_pos hlt.le, if_neg (Nat.not_le.2 hlt)]
  · rw [if_pos heq.le, if_pos heq.ge]
    ext total
    constructor
    · rintro ⟨f, rfl⟩
      exact exists_sum_inverse heq (fun i j => d (ts.get i) (us.get j)) f
    · rintro ⟨f, rfl⟩
      exact exists_sum_inverse heq.symm (fun j i => d (ts.get i) (us.get j)) f
  · rw [if_neg (Nat.not_le.2 hgt), if_pos hgt.le]

/-- Read from right to left, an edit distance is an edit distance. -/
theorem IsEditDistance.swap (h : IsEditDistance mismatch d) :
    IsEditDistance mismatch fun t u => d u t where
  var_var i j := h.var_var j i
  var_left i u hu := h.var_right u i hu
  var_right t j ht := h.var_left j t ht
  const_const a b := (h.const_const b a).trans (if_congr eq_comm rfl rfl)
  const_app a g us := h.app_const g us a
  app_const f ts b := h.const_app b f ts
  app_app f g ts us := by
    obtain ⟨least, isLeast, heq⟩ := h.app_app g f us ts
    refine ⟨least, ?_, heq.trans (congrArg (· + least) (if_congr eq_comm rfl rfl))⟩
    rwa [pairingCosts_swap d us ts]

theorem distance_comm (mismatch : ℚ≥0) (t u : Term) :
    t.distance mismatch u = u.distance mismatch t :=
  (isEditDistance_distance mismatch).eq (isEditDistance_distance mismatch).swap t u

theorem distance_self (mismatch : ℚ≥0) (t : Term) : t.distance mismatch t = 0 := by
  induction t with
  | var id => rfl
  | const symbol => exact if_pos rfl
  | app f ts ih =>
    obtain ⟨least, isLeast, heq⟩ := (isEditDistance_distance mismatch).app_app f f ts ts
    -- Each argument is paired with itself.
    have hzero : (0 : ℚ≥0) ∈ pairingCosts (distance mismatch) ts ts := by
      rw [pairingCosts, if_pos (Nat.le_refl _)]
      refine ⟨Function.Embedding.refl _, Finset.sum_eq_zero fun j _ => ?_⟩
      exact ih _ (List.get_mem ts j)
    have hleast : least = 0 := nonpos_iff_eq_zero.1 (isLeast.2 hzero)
    rw [heq, hleast, if_pos rfl, add_zero]

end Term

namespace Equation

variable (mismatch : ℚ≥0) (a b : Equation)

theorem distance_eq :
    a.distance mismatch b =
      min (a.lhs.distance mismatch b.lhs + a.rhs.distance mismatch b.rhs)
        (a.lhs.distance mismatch b.rhs + a.rhs.distance mismatch b.lhs) := rfl

theorem distance_comm : a.distance mismatch b = b.distance mismatch a := by
  rw [distance_eq, distance_eq, Term.distance_comm mismatch b.lhs a.lhs,
    Term.distance_comm mismatch b.rhs a.rhs, Term.distance_comm mismatch b.lhs a.rhs,
    Term.distance_comm mismatch b.rhs a.lhs, add_comm (a.rhs.distance mismatch b.lhs)]

theorem distance_transpose_right : a.distance mismatch b.transpose = a.distance mismatch b := by
  rw [distance_eq, distance_eq]
  exact min_comm _ _

theorem distance_transpose_left : a.transpose.distance mismatch b = a.distance mismatch b := by
  rw [distance_comm, distance_transpose_right, distance_comm]

theorem distance_self : a.distance mismatch a = 0 := by
  rw [distance_eq, Term.distance_self, Term.distance_self, add_zero]
  exact min_eq_left zero_le

theorem distance_rename_right {α : Type} [Cost α] (mismatch : α) (ρ : Nat → Nat) :
    a.distance mismatch (b.rename ρ) = a.distance mismatch b := by
  have hside (t u : Term) : t.distance mismatch (u.bind fun id => .var (ρ id)) =
      t.distance mismatch u := t.distance_rename_right mismatch ρ u
  simp only [distance, rename, bind, hside]

variable {a b}

/-- **Equivalent equations are at distance nothing.** -/
theorem distance_of_equivalent (h : a.equivalent b = true) : a.distance mismatch b = 0 := by
  obtain ⟨ρ, rfl | rfl⟩ := isVariantOf_of_equivalent h
  · rw [distance_comm, distance_rename_right, distance_self]
  · rw [distance_comm, distance_rename_right, distance_transpose_right, distance_self]

end Equation

end Equational
