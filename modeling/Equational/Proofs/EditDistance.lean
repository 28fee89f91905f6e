import Equational.Proofs.Implication
import Equational.Proofs.Meeting
import Equational.Proofs.Scoring

/-!
# The edit distance

The distance of two stored terms is found in two ways: by recursion on the records, where distances
of records are kept, and with an agenda. Both give the distance of the terms, for costs of any kind.
For exact costs this is the edit distance, where arguments are paired in the cheapest of all ways
(`Statement.score_is_edit_distance`).
-/

namespace Equational

namespace TermGraph

variable {α : Type} [Cost α] {mismatch : α} {a b : TermGraph} {x y : Node} {t u : Term}
  {i j : Nat} {p q : Record}

/-! ### The recursion on records -/

/-- Items worked through in order, where each keeps what is known right. -/
theorem exists_run_mapM {σ β γ : Type} {known : σ → Prop} {f : β → StateM σ γ} {g : β → γ}
    {items : List β}
    (each : ∀ item ∈ items, ∀ s, known s → ∃ s', known s' ∧ (f item).run s = (g item, s'))
    {s : σ} (start : known s) :
    ∃ s', known s' ∧ (items.mapM f).run s = (items.map g, s') := by
  induction items generalizing s with
  | nil => exact ⟨s, start, rfl⟩
  | cons item items ih =>
    obtain ⟨s₁, known₁, hfirst⟩ := each item List.mem_cons_self s start
    obtain ⟨s', known', hrest⟩ :=
      ih (fun item' h => each item' (List.mem_cons_of_mem item h)) known₁
    refine ⟨s', known', ?_⟩
    rw [List.mapM_cons, StateT.run_bind, hfirst]
    show StateT.run (items.mapM f >>= fun rest => pure (g item :: rest)) s₁ = _
    rw [StateT.run_bind, hrest]
    rfl

/-- The distance of what two records store. -/
def recordDistance (mismatch : α) (a b : TermGraph) (pair : Nat × Nat) : α :=
  storedDistance mismatch a b (.func pair.1, .func pair.2)

variable {known : Distances α}

/-- Leaves need no table. -/
theorem run_distanceFrom_leaf (stored : a.Stores x t) (stored' : b.Stores y u)
    (leaf : ∀ i j, (x, y) ≠ (.func i, .func j)) (depth : Nat) (known : Distances α) :
    (distanceFrom mismatch a b depth x y).run known = (t.distance mismatch u, known) := by
  rw [← leafScore_eq stored stored' leaf]
  cases x with
  | free id => cases y <;> cases depth <;> rfl
  | const symbol => cases y <;> cases depth <;> rfl
  | func i =>
    cases y with
    | free id => cases depth <;> rfl
    | const symbol => cases depth <;> rfl
    | func j => exact absurd rfl (leaf i j)

theorem run_distanceFrom_known {d : α} (kept : known[(i, j)]? = some d) (depth : Nat) :
    (distanceFrom mismatch a b (depth + 1) (.func i) (.func j)).run known = (d, known) := by
  simp only [distanceFrom, StateT.run_bind, StateT.run_get, pure_bind, kept]
  rfl

theorem run_distanceFrom_new (found : a.records[i]? = some p) (found' : b.records[j]? = some q)
    (new : known[(i, j)]? = none) {depth : Nat} {rows : List (List α)} {known' : Distances α}
    (hrows : (p.args.mapM fun x => q.args.mapM fun y =>
      distanceFrom mismatch a b depth x y).run known = (rows, known')) :
    (distanceFrom mismatch a b (depth + 1) (.func i) (.func j)).run known =
      (Cost.add (symbolCost mismatch p.symbol q.symbol) (pairingCost p.arity q.arity rows),
        known'.insert (i, j) (Cost.add (symbolCost mismatch p.symbol q.symbol)
          (pairingCost p.arity q.arity rows))) := by
  simp only [distanceFrom, StateT.run_bind, StateT.run_get, pure_bind, new, found, found', hrows]
  rfl

/-- **The recursion on records** finds the distance of what the nodes store. -/
theorem exists_run_distanceFrom (stored : a.Stores x t) (stored' : b.Stores y u) {depth : Nat}
    (deep : t.levels ≤ depth) (right : Tabulates known (recordDistance mismatch a b)) :
    ∃ known', Tabulates known' (recordDistance mismatch a b) ∧
      (distanceFrom mismatch a b depth x y).run known = (t.distance mismatch u, known') := by
  induction stored generalizing y u depth known with
  | free id => exact ⟨known, right, run_distanceFrom_leaf (.free id) stored' (by simp) depth known⟩
  | const symbol =>
    exact ⟨known, right, run_distanceFrom_leaf (.const symbol) stored' (by simp) depth known⟩
  | @func i p term found args ih =>
    cases stored' with
    | free id =>
      exact ⟨known, right,
        run_distanceFrom_leaf (.func found args) (.free id) (by simp) depth known⟩
    | const symbol =>
      exact ⟨known, right,
        run_distanceFrom_leaf (.func found args) (.const symbol) (by simp) depth known⟩
    | @func j q term' found' args' =>
      rw [Term.levels] at deep
      obtain ⟨depth, rfl⟩ : ∃ d, depth = d + 1 := ⟨depth - 1, by omega⟩
      have hvalue : recordDistance mismatch a b (i, j) =
          (Term.app p.symbol (p.args.map term)).distance mismatch
            (.app q.symbol (q.args.map term')) :=
        storedDistance_eq (.func found args) (.func found' args')
      cases hkept : known[(i, j)]? with
      | some d =>
        refine ⟨known, right, ?_⟩
        rw [run_distanceFrom_known hkept, right (i, j) d hkept, hvalue]
      | none =>
        have hbelow : ∀ x ∈ p.args, (term x).levels ≤ depth := fun x hx => by
          have hle := Term.levels_le_levelsArgs (List.mem_map_of_mem (f := term) hx)
          omega
        have hrow : ∀ x ∈ p.args, ∀ known, Tabulates known (recordDistance mismatch a b) →
            ∃ known', Tabulates known' (recordDistance mismatch a b) ∧
              (q.args.mapM fun y => distanceFrom mismatch a b depth x y).run known =
                (q.args.map fun y => (term x).distance mismatch (term' y), known') :=
          fun x hx known right => exists_run_mapM
            (fun y hy known right => ih x hx (args' y hy) (hbelow x hx) right) right
        obtain ⟨known', right', hrows⟩ := exists_run_mapM hrow right
        have hright := right'.insert (i, j)
        rw [hvalue] at hright
        refine ⟨_, hright, ?_⟩
        rw [run_distanceFrom_new found found' hkept hrows, distance_records]

theorem distance_eq (stored : a.Stores a.root t) (stored' : b.Stores b.root u) :
    a.distance mismatch b = t.distance mismatch u := by
  have hempty : Tabulates ∅ (recordDistance mismatch a b) := tabulates_empty _
  obtain ⟨known', -, hrun⟩ := exists_run_distanceFrom stored stored' stored.levels_le_size hempty
  rw [distance, hrun]

end TermGraph

namespace Expression

open TermGraph

variable {α : Type} [Cost α] {a b : Expression}

theorem score_eq (acyclic : a.graph.IsAcyclic) (acyclic' : b.graph.IsAcyclic) (mismatch : α) :
    a.graph.score mismatch b.graph = .ok (a.term.distance mismatch b.term) :=
  scoreWithin_eq acyclic.stores_term acyclic'.stores_term (Nat.le_refl _)

end Expression

namespace Statement

open TermGraph

variable {s s' : Statement}

theorem score_eq {α : Type} [Cost α] (acyclic : s.IsAcyclic) (acyclic' : s'.IsAcyclic)
    (mismatch : α) : s.score mismatch s' = .ok (s.equation.distance mismatch s'.equation) := by
  rw [score, Expression.score_eq acyclic.1 acyclic'.1, Expression.score_eq acyclic.2 acyclic'.2,
    Expression.score_eq acyclic.1 acyclic'.2, Expression.score_eq acyclic.2 acyclic'.1]
  rfl

theorem IsAcyclic.transpose (acyclic : s.IsAcyclic) : s.transpose.IsAcyclic :=
  ⟨acyclic.2, acyclic.1⟩

theorem equation_transpose (s : Statement) : s.transpose.equation = s.equation.transpose := rfl

/-- **The edit distance.** For expressions without circles the work ends within the tasks that two
tables can ask for and never misses a score, whatever the costs are; it finds what the recursion on
records finds, and renaming the variables of either expression changes nothing. In exact costs it is
the one function with the equations of the edit distance, and it is symmetric. So the distance of
statements is symmetric, does not depend on how either of them is oriented, and is nothing for
equivalent ones. -/
theorem score_is_edit_distance :
    (∀ a b : Expression, a.graph.IsAcyclic → b.graph.IsAcyclic →
      (∀ (α : Type) [Cost α] (mismatch : α),
        (∀ count, scoringTasks a.graph b.graph ≤ count →
          scoreWithin count mismatch a.graph b.graph = .ok (a.graph.distance mismatch b.graph)) ∧
        ∀ (c : Expression) (ρ : Nat → Nat), c.graph.IsAcyclic → c.term = a.term.rename ρ →
          c.graph.score mismatch b.graph = a.graph.score mismatch b.graph ∧
          b.graph.score mismatch c.graph = b.graph.score mismatch a.graph) ∧
      ∀ mismatch : ℚ≥0,
        (∃ d, Term.IsEditDistance mismatch d) ∧
        (∀ d, Term.IsEditDistance mismatch d →
          a.graph.score mismatch b.graph = .ok (d a.term b.term)) ∧
        a.graph.score mismatch b.graph = b.graph.score mismatch a.graph) ∧
    ∀ s s' : Statement, s.IsAcyclic → s'.IsAcyclic → ∀ mismatch : ℚ≥0,
      s.score mismatch s' = .ok (s.equation.distance mismatch s'.equation) ∧
      s'.score mismatch s = s.score mismatch s' ∧
      s.transpose.score mismatch s' = s.score mismatch s' ∧
      s.score mismatch s'.transpose = s.score mismatch s' ∧
      (s.equation.equivalent s'.equation = true → s.score mismatch s' = .ok 0) ∧
      (s.equivalent s' = .ok true → s.score mismatch s' = .ok 0) := by
  constructor
  · intro a b acyclic acyclic'
    refine ⟨fun α _ mismatch => ⟨fun count enough => ?_, fun c ρ acyclic'' hterm => ?_⟩,
      fun mismatch => ⟨⟨_, Term.isEditDistance_distance mismatch⟩, fun d isDistance => ?_, ?_⟩⟩
    · rw [scoreWithin_eq acyclic.stores_term acyclic'.stores_term enough,
        distance_eq acyclic.stores_term acyclic'.stores_term]
    · rw [Expression.score_eq acyclic'' acyclic', Expression.score_eq acyclic acyclic',
        Expression.score_eq acyclic' acyclic'', Expression.score_eq acyclic' acyclic, hterm,
        Term.distance_rename_left, Term.distance_rename_right]
      exact ⟨rfl, rfl⟩
    · rw [Expression.score_eq acyclic acyclic',
        (Term.isEditDistance_distance mismatch).eq isDistance]
    · rw [Expression.score_eq acyclic acyclic', Expression.score_eq acyclic' acyclic,
        Term.distance_comm]
  · intro s s' acyclic acyclic' mismatch
    rw [score_eq acyclic acyclic', score_eq acyclic' acyclic, score_eq acyclic.transpose acyclic',
      score_eq acyclic acyclic'.transpose, equation_transpose, equation_transpose,
      Equation.distance_transpose_left, Equation.distance_transpose_right,
      Equation.distance_comm mismatch s'.equation]
    refine ⟨rfl, rfl, rfl, rfl, fun equivalent => ?_, fun ok => ?_⟩
    · rw [Equation.distance_of_equivalent mismatch equivalent]
    · have equivalent := acyclic.denotes.of_equivalent acyclic'.denotes ok
      rw [Equation.distance_of_equivalent mismatch equivalent.symm]

/-- The statement `f(g(x0), g(x0)) = f(x0, x0)`, with one record for both arguments on the left. -/
def folded : Statement := ⟨.paired, Expression.doubled.stored, Expression.twice.stored⟩

theorem isAcyclic_folded : folded.IsAcyclic :=
  ⟨Expression.isAcyclic_doubled, Expression.isAcyclic_twice⟩

/-- Of `f(g(x0), g(x0))` and `f(g(x3), f(x0, x1))` the first arguments are paired for nothing, and
the other two have different symbols. A statement read from right to left is the same. -/
theorem score_is_edit_distance_lopsided :
    Expression.doubled.graph.IsAcyclic ∧ Expression.lopsided.graph.IsAcyclic ∧ folded.IsAcyclic ∧
      Expression.doubled.graph.score (2 : ℚ≥0) Expression.lopsided.graph = .ok 2 ∧
      folded.score (2 : ℚ≥0) folded.transpose = .ok 0 := by
  obtain ⟨hexpressions, hstatements⟩ := score_is_edit_distance
  refine ⟨Expression.isAcyclic_doubled, Expression.isAcyclic_lopsided, isAcyclic_folded, ?_, ?_⟩
  · obtain ⟨-, hexact⟩ :=
      hexpressions _ _ Expression.isAcyclic_doubled Expression.isAcyclic_lopsided
    rw [(hexact 2).2.1 _ (Term.isEditDistance_distance 2)]
    decide +kernel
  · obtain ⟨-, -, -, -, -, hzero⟩ := hstatements _ _ isAcyclic_folded isAcyclic_folded.transpose 2
    exact hzero rfl

end Statement

end Equational
