import Equational.Proofs.Folding

/-!
# Two stored terms reduced together

Two tables are walked through side by side. What should come out is said by a recursion on the first
one (`TermGraph.IsMeeting`): the handlers run in the order in which the recursion calls them, so it
does not matter what they do besides. Walking with an agenda does the same, whatever the numbers of
the records are and wherever the two terms differ (`Expression.foldPair_is_recursion`).
-/

namespace Equational

namespace TermGraph

variable {m : Type → Type} [Monad m] {α : Type}

/-- Reduces two nodes together. Leaves of one kind meet, and so do two records with equally
many arguments, after their arguments from left to right; nothing else is looked into. -/
def reducePairFrom (r : PairReduction m α) (a b : TermGraph) : Nat → Node → Node → m α
  | _, .free i, .free j => r.free i j
  | _, .const c, .const d => r.const c d
  | depth + 1, .func i, .func j =>
    match a.records[i]?, b.records[j]? with
    | some p, some q =>
      if p.arity = q.arity then do
        let args ← (p.args.zip q.args).mapM fun (x, y) => reducePairFrom r a b depth x y
        r.func p.symbol q.symbol args
      else r.other (.func i) (.func j)
    | _, _ => r.other (.func i) (.func j)
  | _, x, y => r.other x y

def reducePair (r : PairReduction m α) (a b : TermGraph) : m α :=
  reducePairFrom r a b a.size a.root b.root

variable [LawfulMonad m] {r : PairReduction m α} {t : Term} {a b : TermGraph} {x y : Node}
  {i j : Nat}
  {p q : Record}

/-- The function meets nodes of two tables by recursion on the first: leaves of one kind meet, and
so do two records with equally many arguments, after their arguments from left to right; in every
other case nothing is looked into. -/
structure IsMeeting (r : PairReduction m α) (a b : TermGraph) (meet : Node → Node → m α) :
    Prop where
  free : ∀ i j, meet (.free i) (.free j) = r.free i j
  const : ∀ c d, meet (.const c) (.const d) = r.const c d
  func : ∀ (i j : Nat) (p q : Record) (t u : Term), a.Stores (.func i) t → b.Stores (.func j) u →
    a.records[i]? = some p → b.records[j]? = some q → p.arity = q.arity →
      meet (.func i) (.func j) = (do
        let args ← (p.args.zip q.args).mapM fun pair => meet pair.1 pair.2
        r.func p.symbol q.symbol args)
  arity : ∀ (i j : Nat) (p q : Record), a.records[i]? = some p → b.records[j]? = some q →
    p.arity ≠ q.arity → meet (.func i) (.func j) = r.other (.func i) (.func j)
  kind : ∀ x y, x.kind ≠ y.kind → meet x y = r.other x y

variable {meet : Node → Node → m α}

/-- The pair takes at most `bound` steps, and its value goes on the stack. -/
def Meets (r : PairReduction m α) (a b : TermGraph) (meet : Node → Node → m α) (bound : Nat)
    (x y : Node) : Prop :=
  ∃ n ≤ bound, ∀ values, Takes (pairTask r a b) [.meet x y] values n
    ((fun value => value :: values) <$> liftM (meet x y))

theorem takes_pair_combine (found : a.records[i]? = some p) (found' : b.records[j]? = some q)
    {args : List α} (length : args.length = p.arity) (values : List α) :
    Takes (pairTask r a b) [.combine i j] (args ++ values) 1
      ((fun value => value :: values) <$> liftM (r.func p.symbol q.symbol args.reverse)) := by
  apply takes_of_work_eq
  simp only [pairTask, recordAt_of_found found, recordAt_of_found found', liftM_ok, pure_bind,
    takeArgs_append length]
  simp

/-- The pairs of arguments that are left are met in order, on top of the values of those before
them, and then the records are combined. -/
theorem takes_pairs (found : a.records[i]? = some p) (found' : b.records[j]? = some q)
    {term : Node → Term} {rest rest' : List Node} (equal : rest.length = rest'.length)
    (meets : ∀ x ∈ rest, ∀ y ∈ rest', Meets r a b meet (term x).visits x y) :
    ∃ n ≤ Term.visitsArgs (rest.map term), ∀ args values : List α,
      args.length + rest.length = p.arity →
        Takes (pairTask r a b) (List.zipWith .meet rest rest' ++ [.combine i j]) (args ++ values)
          (n + 1) (do
            let more ← liftM ((rest.zip rest').mapM fun pair => meet pair.1 pair.2)
            let value ← liftM (r.func p.symbol q.symbol (args.reverse ++ more))
            pure (value :: values)) := by
  induction rest generalizing rest' with
  | nil =>
    refine ⟨0, Nat.le_refl _, fun args values length => ?_⟩
    have h := takes_pair_combine (r := r) found found' length values
    simpa using h
  | cons x rest ih =>
    cases rest' with
    | nil => simp at equal
    | cons y rest' =>
      obtain ⟨n, hn, hfirst⟩ := meets x List.mem_cons_self y List.mem_cons_self
      obtain ⟨n', hn', hrest⟩ := ih (Nat.succ.inj equal) fun x' hx' y' hy' =>
        meets x' (List.mem_cons_of_mem x hx') y' (List.mem_cons_of_mem y hy')
      refine ⟨n + n', Nat.add_le_add hn hn', fun args values length => ?_⟩
      have h := (hfirst (args ++ values)).append fun value =>
        hrest (value :: args) values (by simp only [List.length_cons] at length ⊢; omega)
      simpa [Nat.add_assoc] using h

theorem meets_of_work_eq
    (works : ∀ values, pairTask r a b (.meet x y) values =
      (fun value => ([], value :: values)) <$> liftM (meet x y)) (t : Term) :
    Meets r a b meet t.visits x y := by
  have hpos : 1 ≤ t.visits := by
    cases t with
    | var id => exact Nat.le_refl _
    | const symbol => exact Nat.le_refl _
    | app symbol args => exact Nat.le_add_left _ _
  refine ⟨1, hpos, fun values => takes_of_work_eq ?_⟩
  rw [works, Functor.map_map]

theorem meets_other (meeting : IsMeeting r a b meet) (differ : x.kind ≠ y.kind) (t : Term) :
    Meets r a b meet t.visits x y := by
  apply meets_of_work_eq
  intro values
  rw [meeting.kind x y differ]
  cases x with
  | free i =>
    cases y with
    | free j => exact absurd rfl differ
    | const d => simp [pairTask]
    | func j => simp [pairTask]
  | const c =>
    cases y with
    | free j => simp [pairTask]
    | const d => exact absurd rfl differ
    | func j => simp [pairTask]
  | func i =>
    cases y with
    | free j => simp [pairTask]
    | const d => simp [pairTask]
    | func j => exact absurd rfl differ

/-- **Meeting two nodes** is the recursion on the terms that they store. -/
theorem meets_of_stores (meeting : IsMeeting r a b meet) (stored : a.Stores x t) {u : Term}
    (stored' : b.Stores y u) : Meets r a b meet t.visits x y := by
  induction stored generalizing y u with
  | free i =>
    cases stored' with
    | free j =>
      apply meets_of_work_eq
      simp [pairTask, meeting.free]
    | const d => exact meets_other meeting (by simp [Node.kind]) _
    | func => exact meets_other meeting (by simp [Node.kind]) _
  | const c =>
    cases stored' with
    | free j => exact meets_other meeting (by simp [Node.kind]) _
    | const d =>
      apply meets_of_work_eq
      simp [pairTask, meeting.const]
    | func => exact meets_other meeting (by simp [Node.kind]) _
  | @func i p term found args ih =>
    cases stored' with
    | free j => exact meets_other meeting (by simp [Node.kind]) _
    | const d => exact meets_other meeting (by simp [Node.kind]) _
    | @func j q term' found' args' =>
      by_cases harity : p.arity = q.arity
      · obtain ⟨n, hn, hargs⟩ := takes_pairs found found' harity
          fun x hx y hy => ih x hx (args' y hy)
        refine ⟨n + 1 + 1, Nat.add_le_add_right hn 2, fun values => ?_⟩
        have works : pairTask r a b (.meet (.func i) (.func j)) values =
            pure (List.zipWith .meet p.args q.args ++ [.combine i j], values) := by
          simp only [pairTask, recordAt_of_found found, recordAt_of_found found', liftM_ok,
            pure_bind, if_pos harity]
        have h := takes_of_work_eq_pure works (hargs [] values (Nat.zero_add _))
        rw [meeting.func i j p q _ _ (.func found args) (.func found' args') found found' harity]
        simpa using h
      · apply meets_of_work_eq
        intro values
        rw [meeting.arity i j p q found found' harity]
        simp only [pairTask, recordAt_of_found found, recordAt_of_found found', liftM_ok,
          pure_bind, if_neg harity]
        simp

theorem foldPairWithin_eq (meeting : IsMeeting r a b meet) (stored : a.Stores a.root t) {u : Term}
    (stored' : b.Stores b.root u) {count : Nat} (enough : t.visits ≤ count) :
    foldPairWithin count r a b = liftM (meet a.root b.root) := by
  obtain ⟨n, hn, takes⟩ := meets_of_stores meeting stored stored'
  have hruns := (takes []).workOff_eq (Nat.le_trans hn enough)
  simp [foldPairWithin, hruns]

/-! ### The recursion on tables -/

theorem mapM_congr_of_mem {β γ : Type} {f f' : β → m γ} {items : List β}
    (same : ∀ item ∈ items, f item = f' item) : items.mapM f = items.mapM f' := by
  induction items with
  | nil => simp
  | cons item items ih =>
    rw [List.mapM_cons, List.mapM_cons, same item List.mem_cons_self,
      ih fun item' hitem' => same item' (List.mem_cons_of_mem item hitem')]

omit [LawfulMonad m] in
/-- Walking through two records, one level at a time. -/
theorem reducePairFrom_func (found : a.records[i]? = some p) (found' : b.records[j]? = some q)
    (depth : Nat) :
    reducePairFrom r a b (depth + 1) (.func i) (.func j) =
      if p.arity = q.arity then do
        let args ← (p.args.zip q.args).mapM fun pair => reducePairFrom r a b depth pair.1 pair.2
        r.func p.symbol q.symbol args
      else r.other (.func i) (.func j) := by
  simp only [reducePairFrom, found, found']

/-- Every depth that reaches the leaves of the first term is deep enough. -/
theorem reducePairFrom_eq (stored : a.Stores x t) {u : Term} (stored' : b.Stores y u)
    {depth depth' : Nat} (deep : t.levels ≤ depth) (deep' : t.levels ≤ depth') :
    reducePairFrom r a b depth x y = reducePairFrom r a b depth' x y := by
  induction stored generalizing y u depth depth' with
  | free i => cases stored' <;> simp [reducePairFrom]
  | const c => cases stored' <;> simp [reducePairFrom]
  | @func i p term found _ ih =>
    rw [Term.levels, Nat.add_comm] at deep deep'
    obtain ⟨depth, rfl⟩ : ∃ d, depth = d + 1 := ⟨depth - 1, by omega⟩
    obtain ⟨depth', rfl⟩ : ∃ d, depth' = d + 1 := ⟨depth' - 1, by omega⟩
    cases stored' with
    | free j => simp [reducePairFrom]
    | const d => simp [reducePairFrom]
    | @func j q term' found' args' =>
      have hargs : (p.args.zip q.args).mapM (fun pair => reducePairFrom r a b depth pair.1 pair.2) =
          (p.args.zip q.args).mapM fun pair => reducePairFrom r a b depth' pair.1 pair.2 := by
        refine mapM_congr_of_mem fun pair hpair => ?_
        obtain ⟨hx, hy⟩ := List.of_mem_zip hpair
        have hle := Term.levels_le_levelsArgs (List.mem_map_of_mem (f := term) hx)
        exact ih pair.1 hx (args' pair.2 hy) (by omega) (by omega)
      rw [reducePairFrom_func found found', reducePairFrom_func found found', hargs]

theorem exists_size_eq (found : a.records[i]? = some p) : ∃ depth, a.size = depth + 1 := by
  obtain ⟨hlt, -⟩ := Array.getElem?_eq_some_iff.1 found
  exact ⟨a.size - 1, by rw [size]; omega⟩

theorem isMeeting_reducePairFrom (r : PairReduction m α) (a b : TermGraph) :
    IsMeeting r a b (reducePairFrom r a b a.size) where
  free i j := by simp [reducePairFrom]
  const c d := by simp [reducePairFrom]
  func i j p q t u stored stored' found found' harity := by
    obtain ⟨depth, hsize⟩ := exists_size_eq found
    have hlevels := stored.levels_le_size
    cases stored with
    | @func _ _ term hfound args =>
      cases stored' with
      | @func _ _ term' hfound' args' =>
        cases found.symm.trans hfound
        cases found'.symm.trans hfound'
        rw [hsize, Term.levels] at hlevels
        have hargs :
            (p.args.zip q.args).mapM (fun pair => reducePairFrom r a b depth pair.1 pair.2) =
            (p.args.zip q.args).mapM fun pair => reducePairFrom r a b a.size pair.1 pair.2 := by
          refine mapM_congr_of_mem fun pair hpair => ?_
          obtain ⟨hx, hy⟩ := List.of_mem_zip hpair
          have hle := Term.levels_le_levelsArgs (List.mem_map_of_mem (f := term) hx)
          exact reducePairFrom_eq (args pair.1 hx) (args' pair.2 hy) (by omega) (by omega)
        rw [← hargs, hsize, reducePairFrom_func found found', if_pos harity]
  arity i j p q found found' harity := by
    obtain ⟨depth, hsize⟩ := exists_size_eq found
    rw [hsize, reducePairFrom_func found found', if_neg harity]
  kind x y differ := by
    cases x with
    | free i =>
      cases y with
      | free j => exact absurd rfl differ
      | const d => simp [reducePairFrom]
      | func j => simp [reducePairFrom]
    | const c =>
      cases y with
      | free j => simp [reducePairFrom]
      | const d => exact absurd rfl differ
      | func j => simp [reducePairFrom]
    | func i =>
      cases y with
      | free j => simp [reducePairFrom]
      | const d => simp [reducePairFrom]
      | func j => exact absurd rfl differ

theorem IsMeeting.eq {meet' : Node → Node → m α} (meeting : IsMeeting r a b meet)
    (meeting' : IsMeeting r a b meet') (stored : a.Stores x t) {u : Term}
    (stored' : b.Stores y u) : meet x y = meet' x y := by
  have hkind {x y : Node} (differ : x.kind ≠ y.kind) : meet x y = meet' x y :=
    (meeting.kind x y differ).trans (meeting'.kind x y differ).symm
  induction stored generalizing y u with
  | free i =>
    cases stored' with
    | free j => rw [meeting.free, meeting'.free]
    | const d => exact hkind (by simp [Node.kind])
    | func => exact hkind (by simp [Node.kind])
  | const c =>
    cases stored' with
    | free j => exact hkind (by simp [Node.kind])
    | const d => rw [meeting.const, meeting'.const]
    | func => exact hkind (by simp [Node.kind])
  | @func i p term found args ih =>
    cases stored' with
    | free j => exact hkind (by simp [Node.kind])
    | const d => exact hkind (by simp [Node.kind])
    | @func j q term' found' args' =>
      by_cases harity : p.arity = q.arity
      · have stored : a.Stores (.func i) _ := .func found args
        have stored' : b.Stores (.func j) _ := .func found' args'
        have hargs : (p.args.zip q.args).mapM (fun pair => meet pair.1 pair.2) =
            (p.args.zip q.args).mapM fun pair => meet' pair.1 pair.2 := by
          refine mapM_congr_of_mem fun pair hpair => ?_
          obtain ⟨hx, hy⟩ := List.of_mem_zip hpair
          exact ih pair.1 hx (args' pair.2 hy)
        rw [meeting.func i j p q _ _ stored stored' found found' harity,
          meeting'.func i j p q _ _ stored stored' found found' harity, hargs]
      · rw [meeting.arity i j p q found found' harity, meeting'.arity i j p q found found' harity]

end TermGraph

/-! ### Expressions -/

namespace Expression

open TermGraph

variable {m : Type → Type} [Monad m] [LawfulMonad m] {α : Type} {a b : Expression}

/-- **Reducing two expressions together is the simultaneous recursion.** For expressions without
circles and for any handlers, whatever they do besides giving a value, there is one recursion on the
records of the two expressions: leaves of one kind meet, records with equally many arguments meet
after their arguments from left to right, and anything else goes to the last handler without being
looked into. Walking with an agenda ends within as many tasks as the first term has visits, no task
fails, and the handlers do what they do in the recursion. -/
theorem foldPair_is_recursion (acyclic : a.graph.IsAcyclic) (acyclic' : b.graph.IsAcyclic)
    (r : PairReduction m α) :
    IsMeeting r a.graph b.graph (reducePairFrom r a.graph b.graph a.graph.size) ∧
      (∀ meet, IsMeeting r a.graph b.graph meet →
        meet a.graph.root b.graph.root = reducePair r a.graph b.graph ∧
        ∀ count, a.term.visits ≤ count →
          (foldPairWithin count r a.graph b.graph).run =
            Except.ok <$> meet a.graph.root b.graph.root) ∧
      (foldPair r a.graph b.graph).run = Except.ok <$> reducePair r a.graph b.graph ∧
      ∀ value, (foldPairOr r value a.graph b.graph).run =
        Except.ok <$> reducePair { r with other := fun _ _ => pure value } a.graph b.graph := by
  have stored := acyclic.stores_term
  have stored' := acyclic'.stores_term
  have hfold (r : PairReduction m α) :
      (foldPair r a.graph b.graph).run = Except.ok <$> reducePair r a.graph b.graph := by
    rw [foldPair, foldPairWithin_eq (isMeeting_reducePairFrom r _ _) stored stored' (Nat.le_refl _)]
    simp [reducePair]
  refine ⟨isMeeting_reducePairFrom r _ _, fun meet meeting => ⟨?_, fun count enough => ?_⟩, hfold r,
    fun value => hfold _⟩
  · exact meeting.eq (isMeeting_reducePairFrom r _ _) stored stored'
  · rw [foldPairWithin_eq meeting stored stored' enough]
    simp

/-- The term `f(g(x3), f(x0, x1))`, whose second argument has one argument more than `g` has. -/
def lopsided : Expression :=
  .ofGraph .paired
    { root := .func 2
      records := #[⟨1, [.free 3]⟩, ⟨0, [.free 0, .free 1]⟩, ⟨0, [.func 0, .func 1]⟩] }

theorem isAcyclic_lopsided : lopsided.graph.IsAcyclic := by
  have hfirst : lopsided.graph.Stores (.func 0) (.app 1 [.var 3]) :=
    TermGraph.stores_func_iff.2 ⟨_, _, rfl, rfl, .cons (.free 3) .nil⟩
  have hsecond : lopsided.graph.Stores (.func 1) (.app 0 [.var 0, .var 1]) :=
    TermGraph.stores_func_iff.2 ⟨_, _, rfl, rfl, .cons (.free 0) (.cons (.free 1) .nil)⟩
  have hroot :
      lopsided.graph.Stores (.func 2) (.app 0 [.app 1 [.var 3], .app 0 [.var 0, .var 1]]) :=
    TermGraph.stores_func_iff.2 ⟨_, _, rfl, rfl, .cons hfirst (.cons hsecond .nil)⟩
  exact TermGraph.Stores.isAcyclic hroot (by decide)

/-- Handlers that count the pairs they meet and write down the numbers of each. -/
def meetingLog : PairReduction (StateM (List (Nat × Nat))) Nat where
  free i j := modifyGet fun log => (1, log ++ [(i, j)])
  const c d := modifyGet fun log => (1, log ++ [(c, d)])
  func f g args := modifyGet fun log => (args.foldl (· + ·) 1, log ++ [(f, g)])
  other x y := modifyGet fun log => (1, log ++ [(x.id, y.id)])

/-- The variables of the first arguments meet, then these arguments. The second arguments differ in
their numbers of arguments, so the records that hold them are named; the roots meet last. -/
theorem foldPair_is_recursion_lopsided :
    doubled.graph.IsAcyclic ∧ lopsided.graph.IsAcyclic ∧
      (foldPair meetingLog doubled.graph lopsided.graph).run.run [] =
        (.ok 4, [(0, 3), (1, 1), (1, 1), (0, 0)]) := by
  refine ⟨isAcyclic_doubled, isAcyclic_lopsided, ?_⟩
  obtain ⟨-, -, hfold, -⟩ := foldPair_is_recursion isAcyclic_doubled isAcyclic_lopsided meetingLog
  rw [hfold]
  rfl

end Expression

end Equational
