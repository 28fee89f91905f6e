import Equational.Proofs.Substitution
import Equational.Term.Substitution

/-!
# Matching finds the one substitution there is

Matching narrows a set of substitutions. Bindings stand for all substitutions that extend
them, and matching a pattern against a target leaves those that also turn the pattern into
the target, or finds that there are none. Soundness, completeness and minimality are three
readings of this one statement, `Term.matchInto_narrows`.
-/

namespace Equational

namespace Substitution

/-- The bindings are part of the substitution. -/
def ExtendedBy (bound : Substitution) (σ : Nat → Term) : Prop :=
  ∀ id value, bound.get? id = some value → σ id = value

theorem extendedBy_empty (σ : Nat → Term) : ExtendedBy .empty σ := by
  intro id value h
  simp at h

theorem extendedBy_image (bound : Substitution) : bound.ExtendedBy bound.image := by
  intro id value h
  rw [image, h, Option.getD_some]

theorem extendedBy_insert {bound : Substitution} {id : Nat} (new : bound.get? id = none)
    (value : Term) (σ : Nat → Term) :
    ExtendedBy (bound.insert id value) σ ↔ bound.ExtendedBy σ ∧ σ id = value := by
  constructor
  · intro h
    refine ⟨fun i v hv => ?_, h id value (IdMap.get?_insert_self bound id value)⟩
    have hne : i ≠ id := by
      rintro rfl
      rw [new] at hv
      simp at hv
    exact h i v ((IdMap.get?_insert_of_ne bound value hne).trans hv)
  · rintro ⟨h, hid⟩ i v hv
    by_cases hi : i = id
    · subst hi
      rw [IdMap.get?_insert_self, Option.some.injEq] at hv
      exact hid.trans hv
    · rw [IdMap.get?_insert_of_ne bound value hi] at hv
      exact h i v hv

/-- What it means that `result` narrows the bindings down to a condition on substitutions that
concerns the given variables: those that are left are the ones that meet the condition, and
exactly these variables are bound in addition. -/
def Narrows (bound : Substitution) (vars : List Nat) (condition : (Nat → Term) → Prop) :
    Option Substitution → Prop
  | some result =>
    (∀ σ, result.ExtendedBy σ ↔ bound.ExtendedBy σ ∧ condition σ) ∧
      ∀ id, result.contains id = true ↔ bound.contains id = true ∨ id ∈ vars
  | none => ∀ σ, bound.ExtendedBy σ → ¬condition σ

theorem Narrows.and {bound next : Substitution} {vars more : List Nat}
    {condition further : (Nat → Term) → Prop} {result : Option Substitution}
    (first : bound.Narrows vars condition (some next)) (second : next.Narrows more further result) :
    bound.Narrows (vars ++ more) (fun σ => condition σ ∧ further σ) result := by
  obtain ⟨hfirst, hvars⟩ := first
  cases result with
  | none =>
    intro σ hbound hboth
    exact second σ ((hfirst σ).2 ⟨hbound, hboth.1⟩) hboth.2
  | some result =>
    obtain ⟨hsecond, hmore⟩ := second
    refine ⟨fun σ => ?_, fun id => ?_⟩
    · rw [hsecond σ, hfirst σ, and_assoc]
    · rw [hmore id, hvars id, List.mem_append, or_assoc]

theorem Narrows.none_and {bound : Substitution} {vars more : List Nat}
    {condition further : (Nat → Term) → Prop} (first : bound.Narrows vars condition none) :
    bound.Narrows more (fun σ => condition σ ∧ further σ) none := by
  intro σ hbound hboth
  exact first σ hbound hboth.1

theorem Narrows.congr {bound : Substitution} {vars : List Nat}
    {condition condition' : (Nat → Term) → Prop} {result : Option Substitution}
    (h : bound.Narrows vars condition result) (same : ∀ σ, condition σ ↔ condition' σ) :
    bound.Narrows vars condition' result := by
  have : condition = condition' := funext fun σ => propext (same σ)
  exact this ▸ h

theorem Narrows.absurd {bound : Substitution} {vars : List Nat}
    {condition : (Nat → Term) → Prop} (h : ∀ σ, ¬condition σ) : bound.Narrows vars condition none :=
  fun σ _ => h σ

theorem Narrows.trivial {bound : Substitution} {condition : (Nat → Term) → Prop}
    (h : ∀ σ, condition σ) : bound.Narrows [] condition (some bound) :=
  ⟨fun σ => ⟨fun hbound => ⟨hbound, h σ⟩, And.left⟩, fun id => by simp⟩

theorem Narrows.isSome_iff {bound : Substitution} {vars : List Nat}
    {condition : (Nat → Term) → Prop} {result : Option Substitution}
    (h : bound.Narrows vars condition result) :
    result.isSome = true ↔ ∃ σ, bound.ExtendedBy σ ∧ condition σ := by
  cases result with
  | none =>
    simp only [Option.isSome_none, Bool.false_eq_true, false_iff, not_exists, not_and]
    exact h
  | some result =>
    simp only [Option.isSome_some, true_iff]
    exact ⟨result.image, (h.1 result.image).1 result.extendedBy_image⟩

theorem narrows_kept {bound : Substitution} {id : Nat} {target : Term}
    (kept : bound.get? id = some target) :
    bound.Narrows (Term.var id).vars (fun σ => (Term.var id).bind σ = target) (some bound) := by
  have hbound : bound.contains id = true := by rw [IdMap.contains_iff]; exact ⟨target, kept⟩
  refine ⟨fun σ => ⟨fun h => ⟨h, h id target kept⟩, And.left⟩, fun i => ?_⟩
  rw [Term.mem_vars_var]
  constructor
  · exact .inl
  · rintro (h | rfl)
    · exact h
    · exact hbound

end Substitution

namespace Term

open Substitution

theorem matchArgs_narrows {ts : List Term}
    (ih : ∀ t ∈ ts, ∀ (u : Term) (bound : Substitution),
      bound.Narrows t.vars (fun σ => t.bind σ = u) (t.matchInto u bound))
    (us : List Term) (bound : Substitution) :
    bound.Narrows (varsArgs ts) (fun σ => ts.map (bind σ) = us) (matchArgs ts us bound) := by
  induction ts generalizing us bound with
  | nil =>
    cases us with
    | nil => exact .trivial fun σ => rfl
    | cons u us => exact .absurd fun σ => by simp
  | cons t ts ihts =>
    cases us with
    | nil => exact .absurd fun σ => by simp
    | cons u us =>
      have head := ih t List.mem_cons_self u bound
      have both (σ : Nat → Term) :
          t.bind σ = u ∧ ts.map (bind σ) = us ↔ (t :: ts).map (bind σ) = u :: us := by simp
      rw [matchArgs, varsArgs]
      cases hmatch : t.matchInto u bound with
      | none =>
        rw [hmatch] at head
        exact head.none_and.congr both
      | some next =>
        rw [hmatch] at head
        have tail := ihts (fun t ht => ih t (List.mem_cons_of_mem _ ht)) us next
        exact (head.and tail).congr both

/-- **Matching narrows.** From bindings, matching a pattern leaves exactly the substitutions that
extend the bindings and turn the pattern into the target. -/
theorem matchInto_narrows (pattern target : Term) (bound : Substitution) :
    bound.Narrows pattern.vars (fun σ => pattern.bind σ = target)
      (pattern.matchInto target bound) := by
  induction pattern generalizing target bound with
  | var id =>
    rw [matchInto]
    cases hid : bound.get? id with
    | none =>
      refine ⟨fun σ => ?_, fun i => ?_⟩
      · exact extendedBy_insert hid target σ
      · rw [IdMap.contains_insert, mem_vars_var, or_comm]
    | some kept =>
      by_cases heq : kept = target
      · simp only [heq, if_true]
        exact narrows_kept (heq ▸ hid)
      · simp only [heq, if_false]
        intro σ h hσ
        exact heq ((h id kept hid).symm.trans hσ)
  | const symbol =>
    cases target with
    | var id => exact .absurd fun σ => by simp
    | app other parts => exact .absurd fun σ => by simp
    | const other =>
      rw [matchInto]
      by_cases h : symbol = other
      · simp only [h, if_true]
        exact .trivial fun σ => rfl
      · simp only [h, if_false]
        exact .absurd fun σ hσ => h (const.inj hσ)
  | app symbol args ih =>
    cases target with
    | var id => exact .absurd fun σ => by simp
    | const other => exact .absurd fun σ => by simp
    | app other parts =>
      rw [matchInto]
      by_cases h : symbol = other
      · simp only [h, if_true, vars]
        exact (matchArgs_narrows ih parts bound).congr fun σ => by simp
      · simp only [h, if_false]
        exact .absurd fun σ hσ => h (by simpa using hσ : _ ∧ _).1

/-! ### Matching from no bindings -/

theorem bind_image_of_match? {pattern target : Term} {s : Substitution}
    (h : pattern.match? target = some s) : pattern.bind s.image = target := by
  have narrows := pattern.matchInto_narrows target .empty
  rw [show pattern.matchInto target .empty = some s from h] at narrows
  exact ((narrows.1 s.image).1 s.extendedBy_image).2

theorem contains_of_match? {pattern target : Term} {s : Substitution}
    (h : pattern.match? target = some s) (id : Nat) :
    s.contains id = true ↔ id ∈ pattern.vars := by
  have narrows := pattern.matchInto_narrows target .empty
  rw [show pattern.matchInto target .empty = some s from h] at narrows
  rw [narrows.2 id]
  simp

theorem bind_ne_of_match?_eq_none {pattern target : Term} (h : pattern.match? target = none)
    (σ : Nat → Term) : pattern.bind σ ≠ target := by
  have narrows := pattern.matchInto_narrows target .empty
  rw [show pattern.matchInto target .empty = none from h] at narrows
  exact narrows σ (extendedBy_empty σ)

theorem match?_isSome_iff {pattern target : Term} :
    (pattern.match? target).isSome = true ↔ ∃ σ, pattern.bind σ = target := by
  rw [match?, (pattern.matchInto_narrows target .empty).isSome_iff]
  simp only [extendedBy_empty, true_and]

end Term

namespace Equation

open Substitution

theorem matches?_narrows (pattern target : Equation) :
    Narrows .empty pattern.vars (fun σ => pattern.bind σ = target) (pattern.matches? target) := by
  have left := pattern.lhs.matchInto_narrows target.lhs .empty
  have both (σ : Nat → Term) :
      pattern.lhs.bind σ = target.lhs ∧ pattern.rhs.bind σ = target.rhs ↔
        pattern.bind σ = target := by
    cases target
    simp [bind]
  rw [matches?]
  cases hmatch : pattern.lhs.matchInto target.lhs .empty with
  | none =>
    rw [hmatch] at left
    exact left.none_and.congr both
  | some next =>
    rw [hmatch] at left
    exact (left.and (pattern.rhs.matchInto_narrows target.rhs next)).congr both

theorem matches?_isSome_iff {pattern target : Equation} :
    (pattern.matches? target).isSome = true ↔ ∃ σ, pattern.bind σ = target := by
  rw [(pattern.matches?_narrows target).isSome_iff]
  simp only [extendedBy_empty, true_and]

theorem implies_iff {a b : Equation} :
    a.implies b = true ↔ ∃ σ, a.bind σ = b ∨ a.bind σ = b.transpose := by
  rw [implies, Bool.or_eq_true, matches?_isSome_iff, matches?_isSome_iff, ← exists_or]

end Equation

end Equational
