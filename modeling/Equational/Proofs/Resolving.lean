import Equational.Proofs.Agenda
import Equational.Proofs.Grammar
import Equational.Statement.Reader

/-!
# Resolving by recursion

Trees are resolved from an agenda, lines are found twice, once to read them and once to number
them, and their numbers are put together with their trees afterwards. What this comes to is said
here without agendas, and with each line beside its number: `ParseTree.resolveTerm` goes down a
tree, `ParseTree.statementLines` lists the lines that hold a statement, and `Formula.readSource_eq`
says what is read from a source.
-/

namespace Equational

namespace ParseTree

/-! ### Trees -/

mutual
/-- Resolves an expression, given the variables met so far in the order of their ids. -/
def resolveTerm (ctx : Context) : ParseTree → List String →
    Except ReadError (Formula × List String)
  | .equality _ _, _ => .error ⟨0, 0, .innerEquality⟩
  | .name text args column, known =>
    match ctx.find? text with
    | none =>
      if !args.isEmpty then
        .error ⟨0, column, .notAFunction text⟩
      else
        match known.idxOf? text with
        | some id => .ok (.free id, known)
        | none => .ok (.free known.length, known ++ [text])
    | some symbol =>
      let arity := (ctx.signature.arity? symbol).getD 0
      if arity ≠ args.length then
        .error ⟨0, column, .argumentCount text arity args.length⟩
      else if arity = 0 then
        .ok (.const symbol, known)
      else
        match resolveArgs ctx args known with
        | .ok (args, known) => .ok (.func symbol args, known)
        | .error e => .error e
def resolveArgs (ctx : Context) : List ParseTree → List String →
    Except ReadError (List Formula × List String)
  | [], known => .ok ([], known)
  | t :: ts, known =>
    match resolveTerm ctx t known with
    | .ok (first, known) =>
      match resolveArgs ctx ts known with
      | .ok (rest, known) => .ok (first :: rest, known)
      | .error e => .error e
    | .error e => .error e
end

variable {ctx : Context}

theorem length_of_resolveArgs {trees : List ParseTree} {known known' : List String}
    {fs : List Formula} (ok : resolveArgs ctx trees known = .ok (fs, known')) :
    fs.length = trees.length := by
  induction trees generalizing known fs with
  | nil =>
    obtain ⟨rfl, -⟩ := Prod.mk.inj (Except.ok.inj ok)
    rfl
  | cons tree trees ih =>
    rw [resolveArgs] at ok
    split at ok
    next first known₁ hfirst =>
      split at ok
      next rest known₂ hrest =>
        obtain ⟨rfl, rfl⟩ := Prod.mk.inj (Except.ok.inj ok)
        rw [List.length_cons, List.length_cons, ih hrest]
      next => cases ok
    next => cases ok

/-- Wherever it is begun, the tree is resolved in the same number of steps, and the formula is left
on top of the results. -/
def IsResolved (ctx : Context) (tree : ParseTree) : Prop :=
  ∃ n ≤ tree.visits, ∀ s : Resolving, Takes (resolveTask ctx) [.enter tree] s n
    ((fun found : Formula × List String => ⟨found.2, found.1 :: s.results⟩) <$>
      tree.resolveTerm ctx s.known)

/-- The arguments of a symbol are resolved one after the other. -/
theorem takes_args {trees : List ParseTree} (each : ∀ tree ∈ trees, tree.IsResolved ctx) :
    ∃ n ≤ visitsArgs trees, ∀ s : Resolving, Takes (resolveTask ctx) (trees.map .enter) s n
      ((fun found : List Formula × List String => ⟨found.2, found.1.reverse ++ s.results⟩) <$>
        resolveArgs ctx trees s.known) := by
  induction trees with
  | nil => exact ⟨0, Nat.le_refl 0, takes_nil⟩
  | cons tree trees ih =>
    obtain ⟨n, hn, htree⟩ := each tree List.mem_cons_self
    obtain ⟨n', hn', htrees⟩ := ih fun t ht => each t (List.mem_cons_of_mem tree ht)
    refine ⟨n + n', by rw [visitsArgs]; omega, fun s => ?_⟩
    have happend := (htree s).append fun found => htrees ⟨found.2, found.1 :: s.results⟩
    rw [resolveArgs]
    cases hfirst : tree.resolveTerm ctx s.known with
    | error e =>
      rw [hfirst] at happend
      exact happend
    | ok found =>
      rw [hfirst] at happend
      change Takes _ _ _ _ (_ <$> resolveArgs ctx trees found.2) at happend
      dsimp only
      cases hrest : resolveArgs ctx trees found.2 with
      | error e =>
        rw [hrest] at happend
        exact happend
      | ok rest =>
        rw [hrest] at happend
        simpa using happend

theorem isResolved (ctx : Context) (tree : ParseTree) : tree.IsResolved ctx := by
  induction tree with
  | equality lhs rhs _ _ => exact ⟨1, Nat.le_refl 1, fun s => takes_of_work_eq rfl⟩
  | name text args column ih =>
    obtain ⟨n, hn, hargs⟩ := takes_args ih
    have hleaf : 1 ≤ visits (.name text args column) := by
      rw [visits]
      omega
    cases hfind : ctx.find? text with
    | none =>
      refine ⟨1, hleaf, fun s => takes_of_work_eq ?_⟩
      rw [resolveTask, resolveTerm, hfind]
      dsimp only
      split
      next => rfl
      next =>
        cases s.known.idxOf? text with
        | none => rfl
        | some id => rfl
    | some symbol =>
      by_cases hcount : (ctx.signature.arity? symbol).getD 0 ≠ args.length
      · refine ⟨1, hleaf, fun s => takes_of_work_eq ?_⟩
        rw [resolveTask, resolveTerm, hfind]
        dsimp only
        rw [if_pos hcount, if_pos hcount]
        rfl
      by_cases hzero : (ctx.signature.arity? symbol).getD 0 = 0
      · refine ⟨1, hleaf, fun s => takes_of_work_eq ?_⟩
        rw [resolveTask, resolveTerm, hfind]
        dsimp only
        rw [if_neg hcount, if_pos hzero, if_neg hcount, if_pos hzero]
        rfl
      -- The arguments come first, and the symbol takes their formulas from the results.
      refine ⟨n + 1 + 1, by rw [visits]; omega, fun s => ?_⟩
      have hlength : (ctx.signature.arity? symbol).getD 0 = args.length := by simpa using hcount
      have henter : resolveTask ctx (.enter (.name text args column)) s =
          pure (args.map .enter ++ [.apply symbol args.length], s) := by
        rw [resolveTask, hfind]
        dsimp only
        rw [if_neg hcount, if_neg hzero, hlength]
        rfl
      have happly : ∀ found : List Formula × List String,
          Takes (resolveTask ctx) [.apply symbol args.length]
            ⟨found.2, found.1.reverse ++ s.results⟩ 1
            (pure ⟨found.2, .func symbol
              ((found.1.reverse ++ s.results).take args.length).reverse ::
                (found.1.reverse ++ s.results).drop args.length⟩) :=
        fun found => takes_of_work_eq rfl
      have htakes := takes_of_work_eq_pure henter ((hargs s).append happly)
      rw [resolveTerm, hfind]
      dsimp only
      rw [if_neg hcount, if_neg hzero]
      cases hfound : resolveArgs ctx args s.known with
      | error e =>
        rw [hfound] at htakes
        exact htakes
      | ok found =>
        have hfs : found.1.reverse.length = args.length := by
          rw [List.length_reverse, length_of_resolveArgs hfound]
        rw [hfound] at htakes
        change Takes _ _ _ _ (pure (Resolving.mk _ (_ :: _))) at htakes
        rw [← hfs, List.take_left, List.drop_left, List.reverse_reverse] at htakes
        exact htakes

theorem resolveIn_eq (known : List String) (tree : ParseTree) :
    tree.resolveIn ctx known = tree.resolveTerm ctx known := by
  obtain ⟨n, hn, htakes⟩ := tree.isResolved ctx
  rw [resolveIn, (htakes { known }).workOff_eq hn]
  cases tree.resolveTerm ctx known with
  | error e => rfl
  | ok found => rfl

theorem resolve_equality (lhs rhs : ParseTree) :
    (equality lhs rhs).resolve ctx = (lhs.resolveTerm ctx [] >>= fun left =>
      rhs.resolveTerm ctx left.2 >>= fun right => pure (.equality left.1 right.1)) := by
  simp only [resolve, resolveIn_eq]

/-! ### Lines -/

/-- Of numbered lines those that hold a statement, without their comments. -/
def statementsAmong (lines : List (List Char × Nat)) : List (Nat × List Char) :=
  (lines.map fun (line, number) => (number, Text.withoutComment line)).filter
    fun (_, line) => !line.all Text.isBlank

def statementLines (source : List Char) : List (Nat × List Char) :=
  statementsAmong (Text.lines source).zipIdx

/-- Reads all statements of a source text, each with the number of its line. -/
def readNumbered (source : List Char) : Except ReadError (List (Nat × ParseTree)) :=
  (statementLines source).mapM fun entry =>
    (readLine entry.2).mapError (·.onLine entry.1) >>= fun tree => pure (entry.1, tree)

theorem statementsAmong_cons_of_blank {line : List Char} {number : Nat}
    (h : (Text.withoutComment line).all Text.isBlank = true) (lines : List (List Char × Nat)) :
    statementsAmong ((line, number) :: lines) = statementsAmong lines :=
  List.filter_cons_of_neg (by simpa using h)

theorem statementsAmong_cons_of_not_blank {line : List Char} {number : Nat}
    (h : ¬(Text.withoutComment line).all Text.isBlank = true) (lines : List (List Char × Nat)) :
    statementsAmong ((line, number) :: lines) =
      (number, Text.withoutComment line) :: statementsAmong lines :=
  List.filter_cons_of_pos (by simpa using h)

theorem readLines_eq (lines : List (List Char × Nat)) :
    readLines lines = (List.map Prod.snd) <$> (statementsAmong lines).mapM fun entry =>
      (readLine entry.2).mapError (·.onLine entry.1) >>= fun tree => pure (entry.1, tree) := by
  induction lines with
  | nil => rfl
  | cons entry lines ih =>
    obtain ⟨line, number⟩ := entry
    rw [readLines]
    by_cases hblank : (Text.withoutComment line).all Text.isBlank = true
    · rw [if_pos hblank, ih, statementsAmong_cons_of_blank hblank]
    · rw [if_neg hblank, ih, statementsAmong_cons_of_not_blank hblank, List.mapM_cons]
      simp only [map_eq_pure_bind, bind_assoc, pure_bind, List.map_cons]

theorem readSource_eq (source : List Char) :
    readSource source = (List.map Prod.snd) <$> readNumbered source :=
  readLines_eq _

theorem withoutComment_eq (line : List Char) :
    Text.withoutComment line = (line.idxOf? '#').elim line line.take := by
  induction line with
  | nil => rfl
  | cons c line ih =>
    rw [Text.withoutComment] at ih ⊢
    rw [List.takeWhile_cons, List.idxOf?_cons, ih]
    by_cases hc : c = '#'
    · simp [hc]
    · cases hrest : line.idxOf? '#' <;> simp [hc]

theorem statementNumbers_eq (source : List Char) :
    statementNumbers source = (statementLines source).map Prod.fst := by
  rw [statementNumbers, statementLines]
  induction (Text.lines source).zipIdx with
  | nil => rfl
  | cons entry lines ih =>
    obtain ⟨line, number⟩ := entry
    by_cases hblank : (Text.withoutComment line).all Text.isBlank = true
    · rw [statementsAmong_cons_of_blank hblank, ← ih]
      rw [withoutComment_eq] at hblank
      rw [List.filter_cons_of_neg (by simpa using hblank)]
    · rw [statementsAmong_cons_of_not_blank hblank, List.map_cons, ← ih]
      rw [withoutComment_eq] at hblank
      rw [List.filter_cons_of_pos (by simpa using hblank), List.map_cons]

/-- The trees that were read stand for the lines in their order. -/
theorem map_fst_of_readNumbered {source : List Char} {trees : List (Nat × ParseTree)}
    (ok : readNumbered source = .ok trees) : trees.map Prod.fst = statementNumbers source := by
  rw [statementNumbers_eq]
  rw [readNumbered] at ok
  generalize statementLines source = lines at ok ⊢
  induction lines generalizing trees with
  | nil =>
    cases ok
    rfl
  | cons entry lines ih =>
    rw [List.mapM_cons] at ok
    obtain ⟨first, hfirst, ok⟩ := bind_eq_ok.1 ok
    obtain ⟨rest, hrest, ok⟩ := bind_eq_ok.1 ok
    obtain ⟨tree, -, htree⟩ := bind_eq_ok.1 hfirst
    cases ok
    cases htree
    rw [List.map_cons, List.map_cons, ih hrest]

end ParseTree

namespace Formula

variable {ctx : Context}

theorem resolveAll_eq (trees : List (Nat × ParseTree)) :
    resolveAll ctx (trees.map Prod.snd) (trees.map Prod.fst) =
      trees.mapM fun entry => (entry.2.resolve ctx).mapError (·.onLine entry.1) := by
  induction trees with
  | nil => rfl
  | cons entry trees ih =>
    rw [List.mapM_cons, ← ih]
    rfl

/-- **Lines with their numbers.** Every line is read before the first one is resolved, and each tree
is resolved with the number of its own line. -/
theorem readSource_eq (ctx : Context) (source : List Char) :
    readSource ctx source = ParseTree.readNumbered source >>= fun trees =>
      trees.mapM fun entry => (entry.2.resolve ctx).mapError (·.onLine entry.1) := by
  rw [readSource, ParseTree.readSource_eq, map_eq_pure_bind, bind_assoc]
  refine bind_congr_ok fun trees htrees => ?_
  rw [pure_bind, ← ParseTree.map_fst_of_readNumbered htrees, resolveAll_eq]

end Formula

end Equational
