import Equational.Heuristic.Scoring
import Equational.Proofs.Distance
import Equational.Proofs.Folding
import Equational.Proofs.Marking
import Equational.Proofs.Typing

/-!
# Every score that is looked up is there

Entering two nodes gives them the distance of what they store (`TermGraph.enters_of_stores`). The
pairs of arguments are worked off before the records are combined, and they have fewer levels, so by
then all of them have a score and the records have none yet. Each pair of records is combined once,
so the tasks can be counted: what is still to do is `TermGraph.workLeft`, and every pair that gets a
score takes as much from it as it has asked for (`TermGraph.scoreWithin_eq`).
-/

namespace Equational

/-! ### Tables of values -/

section Tabulates

variable {κ β : Type} [BEq κ] [LawfulBEq κ] [Hashable κ] {table : Std.HashMap κ β} {value : κ → β}

/-- All entries of the table are values of the function. -/
def Tabulates (table : Std.HashMap κ β) (value : κ → β) : Prop :=
  ∀ key v, table[key]? = some v → v = value key

theorem tabulates_empty (value : κ → β) : Tabulates ∅ value := by
  intro key v found
  simp at found

theorem Tabulates.insert (h : Tabulates table value) (key : κ) :
    Tabulates (table.insert key (value key)) value := by
  intro key' v found
  rw [Std.HashMap.getElem?_insert] at found
  split at found
  next heq => rw [← eq_of_beq heq, Option.some_inj.1 found]
  next => exact h key' v found

theorem Tabulates.getElem?_eq (h : Tabulates table value) {key : κ} (found : key ∈ table) :
    table[key]? = some (value key) := by
  obtain ⟨v, hv⟩ := Option.isSome_iff_exists.1 (Std.HashMap.mem_iff_isSome_getElem?.1 found)
  rw [hv, h key v hv]

end Tabulates

namespace TermGraph

variable {α : Type} [Cost α] {mismatch : α} {a b : TermGraph} {x y : Node} {t u : Term}
  {i j : Nat} {p q : Record}

theorem Stores.termAt_func (stored : a.Stores (.func i) t) (found : a.records[i]? = some p) :
    a.termAt (.func i) = .app p.symbol (p.args.map a.termAt) := by
  obtain ⟨p', ts, found', rfl, args⟩ := stores_func_iff.1 stored
  cases found.symm.trans found'
  rw [stored.termAt_eq, (terms_eq_of_forall₂ args).2]

/-! ### Right scores -/

/-- The distance of what two nodes store. -/
def storedDistance (mismatch : α) (a b : TermGraph) (pair : Node × Node) : α :=
  (a.termAt pair.1).distance mismatch (b.termAt pair.2)

theorem storedDistance_eq (stored : a.Stores x t) (stored' : b.Stores y u) :
    storedDistance mismatch a b (x, y) = t.distance mismatch u := by
  rw [storedDistance, stored.termAt_eq, stored'.termAt_eq]

variable {scores before after : Scores α}

theorem scoreOf_eq (right : Tabulates scores (storedDistance mismatch a b))
    (scored : (x, y) ∈ scores) : scoreOf scores x y = .ok (storedDistance mismatch a b (x, y)) := by
  rw [scoreOf, right.getElem?_eq scored]
  rfl

theorem distance_records (p q : Record) (term term' : Node → Term) :
    (Term.app p.symbol (p.args.map term)).distance mismatch
        (.app q.symbol (q.args.map term')) =
      Cost.add (symbolCost mismatch p.symbol q.symbol) (pairingCost p.arity q.arity
        (p.args.map fun x => q.args.map fun y => (term x).distance mismatch (term' y))) := by
  rw [Term.distance_app, List.length_map, List.length_map, List.map_map]
  simp only [List.map_map, Function.comp_def]
  rfl

/-- If all pairs of arguments have scores, none is missed, and the cheapest pairing gives the
distance of the records. -/
theorem argumentScores_eq (right : Tabulates scores (storedDistance mismatch a b))
    (scored : ∀ x ∈ p.args, ∀ y ∈ q.args, (x, y) ∈ scores) :
    ∃ rows, argumentScores scores p q = .ok rows ∧
      (∀ row ∈ rows, min p.arity q.arity ≤ row.length) ∧
      Cost.add (symbolCost mismatch p.symbol q.symbol)
          (Pairing.leastCost rows (min p.arity q.arity)) =
        (Term.app p.symbol (p.args.map a.termAt)).distance mismatch
          (.app q.symbol (q.args.map b.termAt)) := by
  rw [distance_records, argumentScores, pairingCost]
  by_cases hle : q.arity ≤ p.arity
  · refine ⟨p.args.map fun x => q.args.map fun y => storedDistance mismatch a b (x, y),
      ?_, ?_, ?_⟩
    · rw [if_pos hle]
      exact mapM_eq_ok_map fun x hx =>
        mapM_eq_ok_map fun y hy => scoreOf_eq right (scored x hx y hy)
    · simp [Record.arity]
    · rw [if_pos hle, Nat.min_eq_right hle]
      rfl
  · refine ⟨q.args.map fun y => p.args.map fun x => storedDistance mismatch a b (x, y),
      ?_, ?_, ?_⟩
    · rw [if_neg hle]
      exact mapM_eq_ok_map fun y hy =>
        mapM_eq_ok_map fun x hx => scoreOf_eq right (scored x hx y hy)
    · simp [Record.arity]
    · have htransposed := transposed_map
        (fun x y => (a.termAt x).distance mismatch (b.termAt y)) p.args q.args
      rw [if_neg hle, Nat.min_eq_left (Nat.le_of_not_le hle), Record.arity, Record.arity,
        htransposed]
      rfl

/-! ### The work that is left -/

section WorkLeft

omit [Cost α]

/-- The pairs of records without a score. -/
def unscored (a b : TermGraph) (scores : Scores α) : Finset (Nat × Nat) :=
  (Finset.range a.size ×ˢ Finset.range b.size).filter fun pair =>
    (Node.func pair.1, Node.func pair.2) ∉ scores

/-- The number of arguments of a record. -/
def arityAt (g : TermGraph) (index : Nat) : Nat := (g.records[index]?).elim 0 Record.arity

/-- The tasks that pairs without a score can still ask for. -/
def workLeft (a b : TermGraph) (scores : Scores α) : Nat :=
  ∑ pair ∈ unscored a b scores, (a.arityAt pair.1 * b.arityAt pair.2 + 1)

theorem workLeft_le (keeps : ∀ pair ∈ before, pair ∈ after) :
    workLeft a b after ≤ workLeft a b before := by
  refine Finset.sum_le_sum_of_subset fun pair hpair => ?_
  obtain ⟨hrange, hnew⟩ := Finset.mem_filter.1 hpair
  exact Finset.mem_filter.2 ⟨hrange, fun hold => hnew (keeps _ hold)⟩

theorem workLeft_insert (found : a.records[i]? = some p) (found' : b.records[j]? = some q)
    (new : (Node.func i, Node.func j) ∉ scores) (d : α) :
    workLeft a b (scores.insert (.func i, .func j) d) + (p.arity * q.arity + 1) =
      workLeft a b scores := by
  have hmem : (i, j) ∈ unscored a b scores := by
    refine Finset.mem_filter.2 ⟨Finset.mem_product.2 ⟨?_, ?_⟩, new⟩
    · exact Finset.mem_range.2 (Array.getElem?_eq_some_iff.1 found).1
    · exact Finset.mem_range.2 (Array.getElem?_eq_some_iff.1 found').1
  have herase : unscored a b (scores.insert (.func i, .func j) d) =
      (unscored a b scores).erase (i, j) := by
    ext pair
    have hkey : ((Node.func i, Node.func j) == (Node.func pair.1, Node.func pair.2)) = true ↔
        pair = (i, j) := by
      rw [beq_iff_eq, Prod.mk.injEq, Node.func.injEq, Node.func.injEq, Prod.ext_iff, eq_comm,
        eq_comm (a := j)]
    simp only [unscored, Finset.mem_filter, Finset.mem_erase, Std.HashMap.mem_insert, hkey]
    tauto
  have hsum := Finset.sum_erase_add (unscored a b scores)
    (fun pair => a.arityAt pair.1 * b.arityAt pair.2 + 1) hmem
  rw [workLeft, herase, workLeft, ← hsum]
  simp [arityAt, found, found']

theorem sum_arities (records : List Record) (n : Nat) :
    n + ∑ i ∈ Finset.range records.length, (records[i]?).elim 0 Record.arity =
      records.foldl (fun n record => n + record.arity) n := by
  induction records generalizing n with
  | nil => simp
  | cons record records ih =>
    rw [List.foldl_cons, ← ih, List.length_cons, Finset.sum_range_succ']
    simp only [List.getElem?_cons_succ, List.getElem?_cons_zero, Option.elim_some]
    omega

theorem sum_arityAt (g : TermGraph) : ∑ i ∈ Finset.range g.size, g.arityAt i = g.argumentCount := by
  have h := sum_arities g.records.toList 0
  rw [Nat.zero_add, Array.foldl_toList] at h
  simpa [arityAt, argumentCount, size] using h

theorem workLeft_empty (a b : TermGraph) : 1 + workLeft a b (∅ : Scores α) = scoringTasks a b := by
  have hall : unscored a b (∅ : Scores α) = Finset.range a.size ×ˢ Finset.range b.size := by
    simp [unscored]
  rw [workLeft, hall, Finset.sum_add_distrib, Finset.sum_product, scoringTasks, ← sum_arityAt,
    ← sum_arityAt, Finset.sum_mul_sum]
  simp [Nat.add_comm]

end WorkLeft

/-! ### One pair after another -/

/-- What becomes of the scores while pairs are worked off whose first terms have at most `level`
levels. -/
structure Progress (mismatch : α) (a b : TermGraph) (level : Nat) (before after : Scores α) :
    Prop where
  right : Tabulates after (storedDistance mismatch a b)
  keeps : ∀ pair ∈ before, pair ∈ after
  levels : ∀ i j, (Node.func i, Node.func j) ∈ after →
    (Node.func i, Node.func j) ∈ before ∨ (a.termAt (.func i)).levels ≤ level

/-- Entering the pairs gives each of them a score. Besides one task for each pair it takes no more
tasks than there is work less afterwards. -/
def Enters (mismatch : α) (a b : TermGraph) (level : Nat) (pairs : List (Node × Node)) : Prop :=
  ∀ before, Tabulates before (storedDistance mismatch a b) → ∃ n after,
    Takes (scoreTask mismatch a b) (pairs.map fun pair => .enter pair.1 pair.2) before n
      (pure after) ∧
    Progress mismatch a b level before after ∧ (∀ pair ∈ pairs, pair ∈ after) ∧
    n + workLeft a b after ≤ pairs.length + workLeft a b before

variable {level level' : Nat} {pairs : List (Node × Node)}

theorem Enters.mono (enters : Enters mismatch a b level pairs) (le : level ≤ level') :
    Enters mismatch a b level' pairs := by
  intro before right
  obtain ⟨n, after, takes, progress, scored, hwork⟩ := enters before right
  refine ⟨n, after, takes, ⟨progress.right, progress.keeps, fun i j h => ?_⟩, scored, hwork⟩
  exact (progress.levels i j h).imp_right fun hlevel => hlevel.trans le

theorem enters_of_each (each : ∀ pair ∈ pairs, Enters mismatch a b level [pair]) :
    Enters mismatch a b level pairs := by
  induction pairs with
  | nil =>
    intro before right
    have hnothing : Progress mismatch a b level before before :=
      ⟨right, fun _ h => h, fun _ _ h => .inl h⟩
    exact ⟨0, before, takes_nil before, hnothing, by simp, by simp⟩
  | cons pair pairs ih =>
    intro before right
    obtain ⟨n, middle, takes, progress, scored, hwork⟩ := each pair List.mem_cons_self before right
    obtain ⟨n', after, takes', progress', scored', hwork'⟩ :=
      ih (fun pair' h => each pair' (List.mem_cons_of_mem pair h)) middle progress.right
    refine ⟨n + n', after, takes.append_pure takes', ⟨progress'.right, ?_, ?_⟩, ?_, ?_⟩
    · exact fun pair' h => progress'.keeps pair' (progress.keeps pair' h)
    · intro i j h
      rcases progress'.levels i j h with h | hlevel
      · exact progress.levels i j h
      · exact .inr hlevel
    · intro pair' h
      rcases List.mem_cons.1 h with rfl | h
      · exact progress'.keeps _ (scored _ (List.mem_singleton.2 rfl))
      · exact scored' pair' h
    · simp only [List.length_cons, List.length_nil] at hwork ⊢
      omega

theorem scoreTask_enter_of_mem (scored : (x, y) ∈ scores) :
    scoreTask mismatch a b (.enter x y) scores = .ok ([], scores) := by
  have hcontains : scores.contains (x, y) = true := Std.HashMap.mem_iff_contains.1 scored
  rw [scoreTask, if_pos hcontains]
  rfl

theorem scoreTask_enter_of_notMem (new : (x, y) ∉ scores) :
    scoreTask mismatch a b (.enter x y) scores = enterNew mismatch a b scores x y := by
  have hcontains : ¬scores.contains (x, y) = true := fun h => new (Std.HashMap.mem_iff_contains.2 h)
  rw [scoreTask, if_neg hcontains]

/-- To enter a pair, it is enough to know what happens if it has no score yet. -/
theorem enters_of_new
    (new : ∀ before, Tabulates before (storedDistance mismatch a b) → (x, y) ∉ before → ∃ n after,
      Takes (scoreTask mismatch a b) [.enter x y] before n (pure after) ∧
      Progress mismatch a b level before after ∧ (x, y) ∈ after ∧
      n + workLeft a b after ≤ 1 + workLeft a b before) :
    Enters mismatch a b level [(x, y)] := by
  intro before right
  by_cases scored : (x, y) ∈ before
  · have takes : Takes (scoreTask mismatch a b) [.enter x y] before 1 (pure before) :=
      takes_of_work_eq (scoreTask_enter_of_mem scored)
    refine ⟨1, before, takes, ⟨right, fun _ h => h, fun _ _ h => .inl h⟩, ?_, Nat.le_refl _⟩
    exact fun pair h => List.mem_singleton.1 h ▸ scored
  · obtain ⟨n, after, takes, progress, scored, hwork⟩ := new before right scored
    exact ⟨n, after, takes, progress, fun pair h => List.mem_singleton.1 h ▸ scored, hwork⟩

theorem leafScore_eq (stored : a.Stores x t) (stored' : b.Stores y u)
    (leaf : ∀ i j, (x, y) ≠ (.func i, .func j)) :
    leafScore mismatch x y = t.distance mismatch u := by
  cases stored with
  | free id => cases stored' <;> rfl
  | const symbol => cases stored' <;> rfl
  | func =>
    cases stored' with
    | free id => rfl
    | const symbol => rfl
    | func => exact absurd rfl (leaf _ _)

theorem enterNew_leaf (leaf : ∀ i j, (x, y) ≠ (.func i, .func j)) (scores : Scores α) :
    enterNew mismatch a b scores x y =
      .ok ([], scores.insert (x, y) (leafScore mismatch x y)) := by
  cases x with
  | free id => rfl
  | const symbol => rfl
  | func i =>
    cases y with
    | free id => rfl
    | const symbol => rfl
    | func j => exact absurd rfl (leaf i j)

/-- A pair that is not one of records gets its score at once. -/
theorem enters_of_leaf (stored : a.Stores x t) (stored' : b.Stores y u)
    (leaf : ∀ i j, (x, y) ≠ (.func i, .func j)) : Enters mismatch a b level [(x, y)] := by
  refine enters_of_new fun before right new => ?_
  have works : scoreTask mismatch a b (.enter x y) before =
      .ok ([], before.insert (x, y) (storedDistance mismatch a b (x, y))) := by
    rw [scoreTask_enter_of_notMem new, enterNew_leaf leaf, leafScore_eq stored stored' leaf,
      storedDistance_eq stored stored']
  have hkeeps : ∀ pair ∈ before,
      pair ∈ before.insert (x, y) (storedDistance mismatch a b (x, y)) :=
    fun pair h => Std.HashMap.mem_insert.2 (.inr h)
  refine ⟨1, _, takes_of_work_eq works, ⟨right.insert (x, y), hkeeps, fun i j h => ?_⟩,
    Std.HashMap.mem_insert_self, Nat.add_le_add_left (workLeft_le hkeeps) 1⟩
  rcases Std.HashMap.mem_insert.1 h with heq | h
  · exact absurd (eq_of_beq heq) (leaf i j)
  · exact .inl h

/-- Two records ask for all pairs of their arguments, and then they are combined. -/
theorem enterNew_func (found : a.records[i]? = some p) (found' : b.records[j]? = some q)
    (scores : Scores α) :
    enterNew mismatch a b scores (.func i) (.func j) =
      .ok ((p.args ×ˢ q.args).reverse.map (fun pair => .enter pair.1 pair.2) ++ [.combine i j],
        scores) := by
  have hpairs : (p.args.flatMap fun x => q.args.map fun y => ScoreTask.enter x y).reverse =
      (p.args ×ˢ q.args).reverse.map fun pair => .enter pair.1 pair.2 := by
    rw [List.map_reverse]
    simp [SProd.sprod, List.product, List.map_flatMap, Function.comp_def]
  rw [enterNew, recordAt_of_found found, recordAt_of_found found', ← hpairs]
  rfl

/-- Two records are given the distance of what they store, once their arguments have scores. -/
theorem scoreTask_combine (stored : a.Stores (.func i) t) (stored' : b.Stores (.func j) u)
    (found : a.records[i]? = some p) (found' : b.records[j]? = some q)
    (right : Tabulates scores (storedDistance mismatch a b))
    (scored : ∀ x ∈ p.args, ∀ y ∈ q.args, (x, y) ∈ scores) :
    scoreTask mismatch a b (.combine i j) scores = .ok ([], scores.insert (.func i, .func j)
      (storedDistance mismatch a b (.func i, .func j))) := by
  obtain ⟨rows, hrows, hwide, hcost⟩ := argumentScores_eq right scored
  rw [storedDistance, stored.termAt_func found, stored'.termAt_func found', ← hcost, scoreTask,
    recordAt_of_found found, recordAt_of_found found']
  simp only [bind, Except.bind, hrows, Pairing.leastAssignment_eq hwide]
  rfl

/-- Two records get a score if all pairs of their arguments do, and these have fewer levels. -/
theorem enters_of_args (stored : a.Stores (.func i) t) (stored' : b.Stores (.func j) u)
    (found : a.records[i]? = some p) (found' : b.records[j]? = some q) (lower : level < t.levels)
    (args : Enters mismatch a b level (p.args ×ˢ q.args).reverse) :
    Enters mismatch a b t.levels [(.func i, .func j)] := by
  refine enters_of_new fun before right new => ?_
  obtain ⟨n, middle, takes, progress, scored, hwork⟩ := args before right
  have hscored : ∀ x ∈ p.args, ∀ y ∈ q.args, (x, y) ∈ middle := fun x hx y hy =>
    scored (x, y) (List.mem_reverse.2 (List.mem_product.2 ⟨hx, hy⟩))
  have hwork : n + workLeft a b middle ≤ p.arity * q.arity + workLeft a b before := by
    rwa [List.length_reverse, List.length_product] at hwork
  -- The arguments have fewer levels, so the records cannot have been given a score meanwhile.
  have hnew : (Node.func i, Node.func j) ∉ middle := by
    intro h
    rcases progress.levels i j h with h | hlevel
    · exact new h
    · rw [stored.termAt_eq] at hlevel
      omega
  let cost := storedDistance mismatch a b (.func i, .func j)
  have hcombine : Takes (scoreTask mismatch a b) [.combine i j] middle 1
      (pure (middle.insert (.func i, .func j) cost)) :=
    takes_of_work_eq (scoreTask_combine stored stored' found found' progress.right hscored)
  have henter : scoreTask mismatch a b (.enter (.func i) (.func j)) before = _ :=
    (scoreTask_enter_of_notMem new).trans (enterNew_func found found' before)
  have hdone := workLeft_insert found found' hnew cost
  refine ⟨n + 1 + 1, middle.insert (.func i, .func j) cost,
    takes_of_work_eq_pure henter (takes.append_pure hcombine),
    ⟨progress.right.insert (.func i, .func j), fun pair h => ?_, fun i' j' h => ?_⟩,
    Std.HashMap.mem_insert_self, by omega⟩
  · exact Std.HashMap.mem_insert.2 (.inr (progress.keeps pair h))
  · rcases Std.HashMap.mem_insert.1 h with heq | h
    · cases eq_of_beq heq
      exact .inr (by rw [stored.termAt_eq])
    · exact (progress.levels i' j' h).imp_right fun hlevel => hlevel.trans lower.le

/-- **Entering two nodes** gives them the distance of what they store. -/
theorem enters_of_stores (stored : a.Stores x t) (stored' : b.Stores y u) :
    Enters mismatch a b t.levels [(x, y)] := by
  induction stored generalizing y u with
  | free id => exact enters_of_leaf (.free id) stored' (by simp)
  | const symbol => exact enters_of_leaf (.const symbol) stored' (by simp)
  | @func i p term found args ih =>
    cases stored' with
    | free id => exact enters_of_leaf (.func found args) (.free id) (by simp)
    | const symbol => exact enters_of_leaf (.func found args) (.const symbol) (by simp)
    | @func j q term' found' args' =>
      have hargs : Enters mismatch a b (Term.levelsArgs (p.args.map term))
          (p.args ×ˢ q.args).reverse := by
        refine enters_of_each fun pair hpair => ?_
        obtain ⟨hx, hy⟩ := List.mem_product.1 (List.mem_reverse.1 hpair)
        exact (ih pair.1 hx (args' pair.2 hy)).mono
          (Term.levels_le_levelsArgs (List.mem_map_of_mem hx))
      have hlower : Term.levelsArgs (p.args.map term) <
          (Term.app p.symbol (p.args.map term)).levels := by
        rw [Term.levels]
        omega
      exact enters_of_args (.func found args) (.func found' args') found found' hlower hargs

/-- **No score is missed**: within the tasks that two tables can ask for, the distance of the stored
terms is found. -/
theorem scoreWithin_eq (stored : a.Stores a.root t) (stored' : b.Stores b.root u) {count : Nat}
    (enough : scoringTasks a b ≤ count) :
    scoreWithin count mismatch a b = .ok (t.distance mismatch u) := by
  have henters : Enters mismatch a b t.levels [(a.root, b.root)] := enters_of_stores stored stored'
  obtain ⟨n, after, takes, progress, scored, hwork⟩ := henters ∅ (tabulates_empty _)
  have hcount : n ≤ count := by
    have hempty : 1 + workLeft a b (∅ : Scores α) = scoringTasks a b := workLeft_empty a b
    simp only [List.length_singleton] at hwork
    omega
  have hruns := takes.workOff_eq hcount
  have hroot := scoreOf_eq progress.right (scored _ (List.mem_singleton.2 rfl))
  rw [storedDistance_eq stored stored'] at hroot
  simp only [List.map_cons, List.map_nil] at hruns
  rw [scoreWithin, hruns]
  exact hroot

end TermGraph

end Equational
