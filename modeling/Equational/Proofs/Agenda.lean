import Equational.Violation

/-!
# What is on top of an agenda is done first

Tasks on top of an agenda do not see what is below them. So what they do can be said without it:
`Takes` says how many steps they need, together with all that they ask for, and what they do to the
state. From one task it is carried to a list of tasks, and from the tasks that a task asks for to
the task itself.
-/

namespace Equational

variable {m : Type → Type} [Monad m] {τ σ : Type} {work : τ → σ → m (List τ × σ)}

@[simp] theorem workOff_nil (count : Nat) (s : σ) : workOff work count [] s = pure ([], s) := by
  cases count with
  | zero => rfl
  | succ count => rfl

/-- Begun in state `s`, the tasks and all that they ask for take `count` steps and have the given
effect, whatever is below them. -/
def Takes (work : τ → σ → m (List τ × σ)) (tasks : List τ) (s : σ) (count : Nat) (effect : m σ) :
    Prop :=
  ∀ (agenda : List τ) (more : Nat),
    workOff work (count + more) (tasks ++ agenda) s = effect >>= workOff work more agenda

variable [LawfulMonad m] {tasks tasks' more : List τ} {task : τ} {s s' : σ} {n n' : Nat}
  {effect : m σ}

theorem takes_nil (s : σ) : Takes work [] s 0 (pure s) := by
  intro agenda more
  rw [pure_bind, Nat.zero_add, List.nil_append]

/-- A task that asks for nothing. -/
theorem takes_of_work_eq (works : work task s = (fun s' => ([], s')) <$> effect) :
    Takes work [task] s 1 effect := by
  intro agenda count
  rw [Nat.add_comm, List.singleton_append, workOff, works, map_eq_pure_bind, bind_assoc]
  refine bind_congr fun s' => ?_
  rw [pure_bind]
  rfl

/-- A task that does nothing but ask for others. -/
theorem takes_of_work_eq_pure (works : work task s = pure (more, s'))
    (rest : Takes work more s' n effect) : Takes work [task] s (n + 1) effect := by
  intro agenda count
  rw [Nat.add_right_comm, List.singleton_append, workOff, works, pure_bind]
  exact rest agenda count

/-- Tasks one after the other. The second ones begin in a state that depends on what the first ones
found. -/
theorem Takes.append {β : Type} {state : β → σ} {found : m β} {effect' : β → m σ}
    (first : Takes work tasks s n (state <$> found))
    (rest : ∀ b, Takes work tasks' (state b) n' (effect' b)) :
    Takes work (tasks ++ tasks') s (n + n') (found >>= effect') := by
  intro agenda more
  rw [List.append_assoc, Nat.add_assoc, first, map_eq_pure_bind, bind_assoc, bind_assoc]
  refine bind_congr fun b => ?_
  rw [pure_bind]
  exact rest b agenda more

theorem Takes.append_pure (first : Takes work tasks s n (pure s'))
    (rest : Takes work tasks' s' n' effect) :
    Takes work (tasks ++ tasks') s (n + n') effect := by
  intro agenda more
  rw [List.append_assoc, Nat.add_assoc, first, pure_bind, rest]

/-- Once the tasks are done, nothing is left, however many steps are still allowed. -/
theorem Takes.workOff_eq (takes : Takes work tasks s n effect) {count : Nat} (enough : n ≤ count) :
    workOff work count tasks s = (fun s' => ([], s')) <$> effect := by
  obtain ⟨more, rfl⟩ := Nat.exists_eq_add_of_le enough
  have h := takes [] more
  rw [List.append_nil] at h
  rw [h, map_eq_pure_bind]
  exact bind_congr fun s' => workOff_nil more s'

end Equational
