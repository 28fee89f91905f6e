import Equational.Proofs.Substitution
import Equational.Term.Renaming
import Mathlib.Data.Set.Function

/-!
# Equivalence is equality up to renaming

A partial renaming stands for all total renamings that extend it. Taking one term to
another narrows these down to the ones that do so, or finds that no renaming does that is
one-to-one on the variables it concerns (`Term.renameInto_narrows`). So two equations are
equivalent if and only if a renaming that is one-to-one on the variables of the first turns
it into the second, read in one of its orientations (`Equation.equivalent_iff`).
-/

namespace Equational

namespace Renaming

/-- The two maps are inverse to each other. -/
def IsInverse (r : Renaming) : Prop :=
  ∀ a b, r.forward.get? a = some b ↔ r.backward.get? b = some a

/-- The known pairs are part of the total renaming. -/
def ExtendedBy (r : Renaming) (ρ : Nat → Nat) : Prop :=
  ∀ a b, r.forward.get? a = some b → ρ a = b

/-- The variables that have an image already, and the given ones. -/
def scope (r : Renaming) (vars : List Nat) : Set Nat :=
  {id | r.forward.contains id = true ∨ id ∈ vars}

/-- What it means that `result` narrows the renaming down to a condition that concerns the given
variables: the total renamings that are left are the ones that meet it, and exactly these
variables get an image in addition. There is no result only if no renaming that is one-to-one on
all of them meets the condition. -/
def Narrows (r : Renaming) (vars : List Nat) (condition : (Nat → Nat) → Prop) :
    Option Renaming → Prop
  | some result =>
    result.IsInverse ∧ (∀ ρ, result.ExtendedBy ρ ↔ r.ExtendedBy ρ ∧ condition ρ) ∧
      ∀ id, result.forward.contains id = true ↔ id ∈ r.scope vars
  | none => ∀ ρ, Set.InjOn ρ (r.scope vars) → r.ExtendedBy ρ → ¬condition ρ

variable {r next : Renaming} {vars more : List Nat} {condition further : (Nat → Nat) → Prop}
  {result : Option Renaming} {ρ : Nat → Nat}

theorem isInverse_empty : IsInverse {} := by
  intro a b
  simp

theorem extendedBy_empty (ρ : Nat → Nat) : ExtendedBy {} ρ := by
  intro a b h
  simp at h

theorem mem_scope {id : Nat} :
    id ∈ r.scope vars ↔ r.forward.contains id = true ∨ id ∈ vars :=
  Iff.rfl

theorem scope_empty (vars : List Nat) : scope {} vars = {id | id ∈ vars} := by
  ext id
  simp [scope]

/-- A renaming that extends an invertible one is one-to-one where the latter is known. -/
theorem IsInverse.injOn (inverse : r.IsInverse) (h : r.ExtendedBy ρ) :
    Set.InjOn ρ {id | r.forward.contains id = true} := by
  intro a ha a' ha' heq
  obtain ⟨b, hb⟩ := (IdMap.contains_iff _ _).1 ha
  obtain ⟨b', hb'⟩ := (IdMap.contains_iff _ _).1 ha'
  have hsame : b = b' := by rw [← h a b hb, ← h a' b' hb', heq]
  have hback := (inverse a b).1 hb
  rw [hsame, (inverse a' b').1 hb'] at hback
  exact (Option.some.inj hback).symm

/-! ### Narrowing down -/

theorem Narrows.and (first : r.Narrows vars condition (some next))
    (second : next.Narrows more further result) :
    r.Narrows (vars ++ more) (fun ρ => condition ρ ∧ further ρ) result := by
  obtain ⟨-, hfirst, hvars⟩ := first
  have hscope : r.scope (vars ++ more) = next.scope more := by
    ext id
    rw [mem_scope, mem_scope, hvars, mem_scope, List.mem_append, or_assoc]
  cases result with
  | none =>
    intro ρ hinj hr hboth
    rw [hscope] at hinj
    exact second ρ hinj ((hfirst ρ).2 ⟨hr, hboth.1⟩) hboth.2
  | some result =>
    obtain ⟨hinverse, hsecond, hmore⟩ := second
    refine ⟨hinverse, fun ρ => ?_, fun id => ?_⟩
    · rw [hsecond ρ, hfirst ρ, and_assoc]
    · rw [hmore id, hscope]

theorem Narrows.none_and (first : r.Narrows vars condition none) :
    r.Narrows (vars ++ more) (fun ρ => condition ρ ∧ further ρ) none := by
  intro ρ hinj hr hboth
  refine first ρ (hinj.mono fun id hid => ?_) hr hboth.1
  exact hid.imp_right (List.mem_append_left more)

/-- There is a result if and only if the condition can be met by a renaming that is one-to-one on
the variables it concerns. -/
theorem Narrows.isSome_iff (h : r.Narrows vars condition result) :
    result.isSome = true ↔ ∃ ρ, Set.InjOn ρ (r.scope vars) ∧ r.ExtendedBy ρ ∧ condition ρ := by
  cases result with
  | none =>
    simp only [Option.isSome_none, Bool.false_eq_true, false_iff, not_exists, not_and]
    exact h
  | some result =>
    obtain ⟨hinverse, hextended, hknown⟩ := h
    -- The pairs that were found, and any image for all other variables.
    let ρ : Nat → Nat := fun id => (result.forward.get? id).getD 0
    have hρ : result.ExtendedBy ρ := fun a b hab => by
      show (result.forward.get? a).getD 0 = b
      rw [hab, Option.getD_some]
    simp only [Option.isSome_some, true_iff]
    exact ⟨ρ, (hinverse.injOn hρ).mono fun id hid => (hknown id).2 hid, (hextended ρ).1 hρ⟩

theorem Narrows.congr {condition' : (Nat → Nat) → Prop} (h : r.Narrows vars condition result)
    (same : ∀ ρ, condition ρ ↔ condition' ρ) : r.Narrows vars condition' result := by
  have heq : condition = condition' := funext fun ρ => propext (same ρ)
  exact heq ▸ h

theorem Narrows.absurd (h : ∀ ρ, ¬condition ρ) : r.Narrows vars condition none :=
  fun ρ _ _ => h ρ

theorem Narrows.trivial (inverse : r.IsInverse) (h : ∀ ρ, condition ρ) :
    r.Narrows [] condition (some r) :=
  ⟨inverse, fun ρ => ⟨fun hr => ⟨hr, h ρ⟩, And.left⟩, fun id => by simp [scope]⟩

theorem IsInverse.insert (inverse : r.IsInverse) {a b : Nat} (ha : r.forward.get? a = none)
    (hb : r.backward.get? b = none) :
    IsInverse ⟨r.forward.insert a b, r.backward.insert b a⟩ := by
  intro a' b'
  simp only [IdMap.get?_insert]
  by_cases haa : a' = a
  · by_cases hbb : b' = b
    · simp [haa, hbb]
    · have hne : r.backward.get? b' ≠ some a' := fun h => by
        rw [haa, ← inverse a b', ha] at h
        cases h
      rw [if_pos haa, if_neg hbb]
      simp [hne, Ne.symm hbb]
  · by_cases hbb : b' = b
    · have hne : r.forward.get? a' ≠ some b' := fun h => by
        rw [hbb, inverse a' b, hb] at h
        cases h
      rw [if_neg haa, if_pos hbb]
      simp [hne, Ne.symm haa]
    · rw [if_neg haa, if_neg hbb]
      exact inverse a' b'

theorem extendedBy_insert {a : Nat} (ha : r.forward.get? a = none) (b : Nat)
    (backward : IdMap Nat) (ρ : Nat → Nat) :
    ExtendedBy ⟨r.forward.insert a b, backward⟩ ρ ↔ r.ExtendedBy ρ ∧ ρ a = b := by
  constructor
  · intro h
    refine ⟨fun a' b' hb' => h a' b' ?_, h a b (IdMap.get?_insert_self ..)⟩
    have hne : a' ≠ a := by
      rintro rfl
      rw [ha] at hb'
      cases hb'
    exact (IdMap.get?_insert_of_ne _ _ hne).trans hb'
  · rintro ⟨h, hab⟩ a' b' hb'
    have hget : (r.forward.insert a b).get? a' = some b' := hb'
    rw [IdMap.get?_insert] at hget
    split at hget
    next haa => rw [haa, hab, Option.some.inj hget]
    next => exact h a' b' hget

/-- Sending a variable to another one fails only if the variable has another image, or the image
is taken. -/
theorem send_narrows (inverse : r.IsInverse) (a b : Nat) :
    r.Narrows [a] (fun ρ => ρ a = b) (r.send a b) := by
  rw [send]
  split
  next ha hb =>
    refine ⟨inverse.insert ha hb, extendedBy_insert ha b _, fun id => ?_⟩
    rw [IdMap.contains_insert, mem_scope, List.mem_singleton, or_comm]
  next image origin ha hb =>
    split
    next hsame =>
      obtain ⟨rfl, rfl⟩ := hsame
      have hknown : r.forward.contains origin = true := (IdMap.contains_iff _ _).2 ⟨image, ha⟩
      refine ⟨inverse, fun ρ => ⟨fun h => ⟨h, h origin image ha⟩, And.left⟩, fun id => ?_⟩
      rw [mem_scope, List.mem_singleton]
      constructor
      · exact .inl
      · rintro (h | rfl)
        · exact h
        · exact hknown
    next hother =>
      intro ρ _ hr hab
      obtain rfl : image = b := (hr a image ha).symm.trans hab
      rw [(inverse a image).1 ha] at hb
      exact hother ⟨rfl, (Option.some.inj hb).symm⟩
  next hnot hboth =>
    intro ρ hinj hr hab
    cases ha : r.forward.get? a with
    | some image =>
      obtain rfl : image = b := (hr a image ha).symm.trans hab
      exact hboth image a ha ((inverse a image).1 ha)
    | none =>
      cases hb : r.backward.get? b with
      | none => exact hnot ha hb
      | some origin =>
        -- The image is taken by another variable.
        have horigin := (inverse origin b).2 hb
        have hknown : r.forward.contains origin = true := (IdMap.contains_iff _ _).2 ⟨b, horigin⟩
        have hsame : origin = a := hinj (.inl hknown) (.inr List.mem_cons_self)
          ((hr origin b horigin).trans hab.symm)
        rw [hsame, ha] at horigin
        cases horigin

end Renaming

/-! ### Terms -/

namespace Term

open Renaming

theorem rename_app (ρ : Nat → Nat) (symbol : Nat) (args : List Term) :
    (app symbol args).rename ρ = .app symbol (args.map (rename ρ)) :=
  bind_app _ symbol args

theorem renameArgs_narrows {as : List Term}
    (ih : ∀ a ∈ as, ∀ (b : Term) (r : Renaming), r.IsInverse →
      r.Narrows a.vars (fun ρ => a.rename ρ = b) (a.renameInto b r))
    (bs : List Term) (r : Renaming) (inverse : r.IsInverse) :
    r.Narrows (varsArgs as) (fun ρ => as.map (rename ρ) = bs) (renameArgs as bs r) := by
  induction as generalizing bs r with
  | nil =>
    cases bs with
    | nil => exact .trivial inverse fun ρ => rfl
    | cons b bs => exact .absurd fun ρ => by simp
  | cons a as ihas =>
    cases bs with
    | nil => exact .absurd fun ρ => by simp
    | cons b bs =>
      have head := ih a List.mem_cons_self b r inverse
      have both (ρ : Nat → Nat) :
          a.rename ρ = b ∧ as.map (rename ρ) = bs ↔ (a :: as).map (rename ρ) = b :: bs := by simp
      rw [renameArgs, varsArgs]
      cases hinto : a.renameInto b r with
      | none =>
        rw [hinto] at head
        exact head.none_and.congr both
      | some next =>
        rw [hinto] at head
        have tail := ihas (fun a ha => ih a (List.mem_cons_of_mem _ ha)) bs next head.1
        exact (head.and tail).congr both

/-- **Renaming narrows.** From known pairs, taking a term to another leaves exactly the total
renamings that extend the pairs and take the one to the other. -/
theorem renameInto_narrows (a b : Term) (r : Renaming) (inverse : r.IsInverse) :
    r.Narrows a.vars (fun ρ => a.rename ρ = b) (a.renameInto b r) := by
  induction a generalizing b r with
  | var id =>
    cases b with
    | var other =>
      exact (send_narrows inverse id other).congr fun ρ => by simp [rename]
    | const other => exact .absurd fun ρ => by simp [rename]
    | app other parts => exact .absurd fun ρ => by simp [rename]
  | const symbol =>
    cases b with
    | var other => exact .absurd fun ρ => by simp [rename]
    | app other parts => exact .absurd fun ρ => by simp [rename]
    | const other =>
      rw [renameInto]
      by_cases h : symbol = other
      · rw [if_pos h]
        exact .trivial inverse fun ρ => by simp [rename, h]
      · rw [if_neg h]
        exact .absurd fun ρ => by simp [rename, h]
  | app symbol args ih =>
    cases b with
    | var other => exact .absurd fun ρ => by simp [rename]
    | const other => exact .absurd fun ρ => by simp [rename]
    | app other parts =>
      rw [renameInto]
      by_cases h : symbol = other
      · rw [if_pos h, vars]
        exact (renameArgs_narrows ih parts r inverse).congr fun ρ => by simp [rename_app, h]
      · rw [if_neg h]
        exact .absurd fun ρ => by simp [rename_app, h]

end Term

/-! ### Equations -/

namespace Equation

open Renaming

variable {a b : Equation} {ρ : Nat → Nat}

theorem renames_narrows (a b : Equation) :
    Narrows {} a.vars (fun ρ => a.rename ρ = b) (a.renames b) := by
  have left := a.lhs.renameInto_narrows b.lhs {} isInverse_empty
  have both (ρ : Nat → Nat) :
      a.lhs.rename ρ = b.lhs ∧ a.rhs.rename ρ = b.rhs ↔ a.rename ρ = b := by
    cases b
    simp [rename, bind, Term.rename]
  rw [renames]
  cases hinto : a.lhs.renameInto b.lhs {} with
  | none =>
    rw [hinto] at left
    exact left.none_and.congr both
  | some next =>
    rw [hinto] at left
    exact (left.and (a.rhs.renameInto_narrows b.rhs next left.1)).congr both

theorem renames_isSome_iff :
    (a.renames b).isSome = true ↔ ∃ ρ, Set.InjOn ρ {id | id ∈ a.vars} ∧ a.rename ρ = b := by
  rw [(a.renames_narrows b).isSome_iff, scope_empty]
  simp only [extendedBy_empty, true_and]

/-- **Equivalence is equality up to renaming**: a renaming that is one-to-one on the variables of
the first equation turns it into the second one or its transpose. -/
theorem equivalent_iff :
    a.equivalent b = true ↔
      ∃ ρ, Set.InjOn ρ {id | id ∈ a.vars} ∧ (a.rename ρ = b ∨ a.rename ρ = b.transpose) := by
  rw [equivalent, Bool.or_eq_true, renames_isSome_iff, renames_isSome_iff, ← exists_or]
  simp only [and_or_left]

theorem mem_vars_rename {id : Nat} : id ∈ (a.rename ρ).vars ↔ ∃ i ∈ a.vars, ρ i = id := by
  rw [rename, mem_vars_bind]
  simp only [Term.mem_vars_var, eq_comm]

theorem exists_rename_rename (hinj : Set.InjOn ρ {id | id ∈ a.vars}) :
    ∃ ρ', Set.InjOn ρ' {id | id ∈ (a.rename ρ).vars} ∧ (a.rename ρ).rename ρ' = a := by
  have hback : ∀ id ∈ a.vars, Function.invFunOn ρ {id | id ∈ a.vars} (ρ id) = id :=
    fun id hid => hinj.leftInvOn_invFunOn hid
  refine ⟨Function.invFunOn ρ {id | id ∈ a.vars}, ?_, ?_⟩
  · intro id hid id' hid' heq
    obtain ⟨i, hi, rfl⟩ := mem_vars_rename.1 hid
    obtain ⟨j, hj, rfl⟩ := mem_vars_rename.1 hid'
    rw [hback i hi, hback j hj] at heq
    rw [heq]
  · rw [rename, rename, bind_bind]
    refine bind_eq_self fun id hid => ?_
    rw [Term.bind_var, hback id hid]

theorem rename_transpose (a : Equation) (ρ : Nat → Nat) :
    a.transpose.rename ρ = (a.rename ρ).transpose := rfl

theorem transpose_transpose (a : Equation) : a.transpose.transpose = a := rfl

theorem equivalent_symm (h : a.equivalent b = true) : b.equivalent a = true := by
  obtain ⟨ρ, hinj, hρ⟩ := equivalent_iff.1 h
  obtain ⟨ρ', hinj', hρ'⟩ := exists_rename_rename hinj
  refine equivalent_iff.2 ⟨ρ', ?_⟩
  rcases hρ with rfl | hρ
  · exact ⟨hinj', .inl hρ'⟩
  · rw [hρ] at hinj' hρ'
    refine ⟨fun i hi j hj => hinj' (mem_vars_transpose.2 hi) (mem_vars_transpose.2 hj), .inr ?_⟩
    rw [← hρ', rename_transpose, transpose_transpose]

theorem equivalent_comm (a b : Equation) : a.equivalent b = b.equivalent a :=
  Bool.eq_iff_iff.2 ⟨equivalent_symm, equivalent_symm⟩

end Equation

end Equational
