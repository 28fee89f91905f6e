import Equational.Proofs.IdMap
import Equational.Term.Substitution

/-!
# Laws of substitution

A substitution acts on a term through the variables that occur in it, so two of them that
agree there act alike, and one that acts like another agrees with it there. Acting twice is
acting with the composite. Shifting, assigning one variable and renaming are instances.
-/

namespace Equational

namespace Term

/-! ### Induction on terms -/

/-- To prove something of all terms, prove it of an application from its arguments. -/
@[induction_eliminator]
theorem induction {motive : Term → Prop} (var : ∀ id, motive (.var id))
    (const : ∀ symbol, motive (.const symbol))
    (app : ∀ symbol args, (∀ t ∈ args, motive t) → motive (.app symbol args)) :
    ∀ t, motive t
  | .var id => var id
  | .const symbol => const symbol
  | .app symbol args => app symbol args fun t _ => induction var const app t

theorem bindArgs_eq_map (image : Nat → Term) (ts : List Term) :
    bindArgs image ts = ts.map (bind image) := by
  induction ts with
  | nil => rfl
  | cons t ts ih => rw [bindArgs, ih, List.map_cons]

@[simp] theorem bind_app (image : Nat → Term) (symbol : Nat) (args : List Term) :
    (app symbol args).bind image = .app symbol (args.map (bind image)) := by
  rw [bind, bindArgs_eq_map]

@[simp] theorem bind_var (image : Nat → Term) (id : Nat) : (var id).bind image = image id := rfl

@[simp] theorem bind_const (image : Nat → Term) (symbol : Nat) :
    (const symbol).bind image = .const symbol := rfl

theorem mem_varsArgs {id : Nat} {ts : List Term} : id ∈ varsArgs ts ↔ ∃ t ∈ ts, id ∈ t.vars := by
  induction ts with
  | nil => simp [varsArgs]
  | cons t ts ih => simp [varsArgs, ih]

@[simp] theorem mem_vars_var {id i : Nat} : i ∈ (var id).vars ↔ i = id := by simp [vars]

@[simp] theorem mem_vars_const {symbol i : Nat} : i ∈ (const symbol).vars ↔ False := by
  simp [vars]

@[simp] theorem mem_vars_app {symbol : Nat} {args : List Term} {i : Nat} :
    i ∈ (app symbol args).vars ↔ ∃ t ∈ args, i ∈ t.vars := by
  rw [vars, mem_varsArgs]

theorem contains_freeIds (t : Term) (id : Nat) : t.freeIds.contains id = true ↔ id ∈ t.vars :=
  IdSet.contains_ofIds t.vars id

/-! ### Laws of `bind` -/

theorem bind_eq_bind_iff {f g : Nat → Term} {t : Term} :
    t.bind f = t.bind g ↔ ∀ id ∈ t.vars, f id = g id := by
  induction t with
  | var id => simp
  | const symbol => simp
  | app symbol args ih =>
    simp only [bind_app, app.injEq, true_and, List.map_inj_left, mem_vars_app]
    constructor
    · rintro h id ⟨t, ht, hid⟩
      exact (ih t ht).1 (h t ht) id hid
    · intro h t ht
      exact (ih t ht).2 fun id hid => h id ⟨t, ht, hid⟩

theorem bind_congr {f g : Nat → Term} {t : Term} (h : ∀ id ∈ t.vars, f id = g id) :
    t.bind f = t.bind g :=
  bind_eq_bind_iff.2 h

theorem bind_bind (f g : Nat → Term) (t : Term) :
    (t.bind f).bind g = t.bind fun id => (f id).bind g := by
  induction t with
  | var id => rfl
  | const symbol => rfl
  | app symbol args ih =>
    simp only [bind_app, List.map_map, app.injEq, true_and, List.map_inj_left]
    exact ih

theorem bind_id (t : Term) : t.bind .var = t := by
  induction t with
  | var id => rfl
  | const symbol => rfl
  | app symbol args ih =>
    rw [bind_app, List.map_congr_left ih, List.map_id']

theorem bind_eq_self {f : Nat → Term} {t : Term} (h : ∀ id ∈ t.vars, f id = .var id) :
    t.bind f = t :=
  (bind_congr h).trans t.bind_id

theorem mem_vars_bind {f : Nat → Term} {t : Term} {id : Nat} :
    id ∈ (t.bind f).vars ↔ ∃ i ∈ t.vars, id ∈ (f i).vars := by
  induction t with
  | var i => simp
  | const symbol => simp
  | app symbol args ih =>
    simp only [bind_app, mem_vars_app, List.mem_map]
    constructor
    · rintro ⟨_, ⟨t, ht, rfl⟩, hid⟩
      obtain ⟨i, hi, hid⟩ := (ih t ht).1 hid
      exact ⟨i, ⟨t, ht, hi⟩, hid⟩
    · rintro ⟨i, ⟨t, ht, hi⟩, hid⟩
      exact ⟨t.bind f, ⟨t, ht, rfl⟩, (ih t ht).2 ⟨i, hi, hid⟩⟩

/-! ### Shifting, assigning and renaming -/

theorem shift_zero (t : Term) : t.shift 0 = t := t.bind_id

theorem shift_bind_sub (n : Nat) (t : Term) : (t.shift n).bind (fun id => .var (id - n)) = t := by
  rw [shift, bind_bind]
  refine bind_eq_self fun id _ => ?_
  rw [bind_var, Nat.add_sub_cancel]

/-- Takes every variable to a variable. -/
def rename (ρ : Nat → Nat) : Term → Term := bind fun id => .var (ρ id)

end Term

namespace Equation

theorem mem_vars {e : Equation} {id : Nat} :
    id ∈ e.vars ↔ id ∈ e.lhs.vars ∨ id ∈ e.rhs.vars :=
  List.mem_append

def freeIds (e : Equation) : IdSet := e.lhs.freeIds.union e.rhs.freeIds

theorem contains_freeIds (e : Equation) (id : Nat) :
    e.freeIds.contains id = true ↔ id ∈ e.vars := by
  rw [freeIds, IdSet.contains_union, Term.contains_freeIds, Term.contains_freeIds, mem_vars]

theorem bind_congr {f g : Nat → Term} {e : Equation} (h : ∀ id ∈ e.vars, f id = g id) :
    e.bind f = e.bind g := by
  have hl := Term.bind_congr fun id hid => h id (mem_vars.2 (.inl hid))
  have hr := Term.bind_congr fun id hid => h id (mem_vars.2 (.inr hid))
  rw [bind, bind, hl, hr]

theorem bind_bind (f g : Nat → Term) (e : Equation) :
    (e.bind f).bind g = e.bind fun id => (f id).bind g := by
  simp only [bind, Term.bind_bind]

theorem bind_eq_self {f : Nat → Term} {e : Equation} (h : ∀ id ∈ e.vars, f id = .var id) :
    e.bind f = e := by
  have hl := Term.bind_eq_self fun id hid => h id (mem_vars.2 (.inl hid))
  have hr := Term.bind_eq_self fun id hid => h id (mem_vars.2 (.inr hid))
  rw [bind, hl, hr]

theorem mem_vars_bind {f : Nat → Term} {e : Equation} {id : Nat} :
    id ∈ (e.bind f).vars ↔ ∃ i ∈ e.vars, id ∈ (f i).vars := by
  simp only [mem_vars, bind, Term.mem_vars_bind, or_and_right, exists_or]

theorem mem_vars_transpose {e : Equation} {id : Nat} : id ∈ e.transpose.vars ↔ id ∈ e.vars := by
  rw [mem_vars, mem_vars]
  exact or_comm

/-- Takes every variable to a variable. -/
def rename (ρ : Nat → Nat) : Equation → Equation := bind fun id => .var (ρ id)

theorem shift_eq_bind (n : Nat) (e : Equation) : e.shift n = e.bind fun id => .var (id + n) := rfl

theorem assign_eq_bind (e : Equation) (id : Nat) (value : Term) :
    e.assign id value = e.bind fun i => if i = id then value else .var i := rfl

end Equation

end Equational
