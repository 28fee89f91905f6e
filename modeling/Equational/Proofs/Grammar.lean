import Equational.Proofs.Reading

/-!
# The grammar of lines

The grammar says which texts are lines, and what their trees are, without saying how to find
out. A derivation knows the column it starts at. The reader of lines accepts exactly what the
grammar derives (`ParseTree.readLine_eq_ok_iff`): soundness follows the recursion of the reader,
completeness is by induction on the tree. Nowhere does the grammar demand that names are as long
as they can be; that they are is a consequence.
-/

namespace Equational

open Text

/-! ### The grammar -/

namespace ParseTree

/-- To prove something of all parse trees, prove it of each kind of node from its parts. -/
@[induction_eliminator]
theorem induction {motive : ParseTree → Prop}
    (equality : ∀ lhs rhs, motive lhs → motive rhs → motive (.equality lhs rhs))
    (name : ∀ text args column, (∀ t ∈ args, motive t) → motive (.name text args column)) :
    ∀ t, motive t
  | .equality lhs rhs =>
    equality lhs rhs (induction equality name lhs) (induction equality name rhs)
  | .name text args column => name text args column fun t _ => induction equality name t

/-- Expressions with commas between them, up to a closing parenthesis, given what an expression
is. -/
inductive SpellsArgs (spells : Nat → List Char → ParseTree → Prop) :
    Nat → List Char → List ParseTree → Prop
  | last {column : Nat} {gap text gap' : List Char} {tree : ParseTree} (before : IsGap gap)
      (arg : spells (column + gap.length) text tree) (after : IsGap gap') :
      SpellsArgs spells column (gap ++ text ++ gap' ++ [')']) [tree]
  | more {column : Nat} {gap text gap' rest : List Char} {tree : ParseTree} {trees : List ParseTree}
      (before : IsGap gap) (arg : spells (column + gap.length) text tree) (after : IsGap gap')
      (others :
        SpellsArgs spells (column + gap.length + text.length + gap'.length + 1) rest trees) :
      SpellsArgs spells column (gap ++ text ++ gap' ++ ',' :: rest) (tree :: trees)

/-- The text, from the given column on, is an expression with the given tree. -/
inductive Spells : Nat → List Char → ParseTree → Prop
  | name {column : Nat} {text : String} (isName : IsName text) :
      Spells column text.toList (.name text [] column)
  | call {column : Nat} {text : String} {gap inner : List Char} {args : List ParseTree}
      (isName : IsName text) (before : IsGap gap)
      (each : SpellsArgs Spells (column + text.toList.length + gap.length + 1) inner args) :
      Spells column (text.toList ++ gap ++ '(' :: inner) (.name text args column)

/-- The line is an equality between two expressions, with blanks around them. -/
inductive IsLine : List Char → ParseTree → Prop
  | equality {gap₀ left gap₁ gap₂ right gap₃ : List Char} {lhs rhs : ParseTree} (h₀ : IsGap gap₀)
      (leftSide : Spells gap₀.length left lhs) (h₁ : IsGap gap₁) (h₂ : IsGap gap₂)
      (rightSide : Spells (gap₀.length + left.length + gap₁.length + 1 + gap₂.length) right rhs)
      (h₃ : IsGap gap₃) :
      IsLine (gap₀ ++ left ++ gap₁ ++ '=' :: (gap₂ ++ right ++ gap₃)) (.equality lhs rhs)

/-! ### Soundness -/

theorem spells_of_readWithin (bound : Nat) :
    (∀ {i r : Input} {tree : ParseTree}, readWithin bound i = .ok (tree, r) →
      ∃ gap text, IsGap gap ∧ Spells (i.column + gap.length) text tree ∧
        i.chars = gap ++ text ++ r.chars ∧ r.column = i.column + gap.length + text.length) ∧
    ∀ {i r : Input} {trees : List ParseTree}, readArgsWithin bound i = .ok (trees, r) →
      ∃ text, SpellsArgs Spells i.column text trees ∧ i.chars = text ++ r.chars ∧
        r.column = i.column + text.length := by
  induction bound with
  | zero =>
    constructor
    · intro i r tree ok
      cases ok
    · intro i r trees ok
      cases ok
  | succ bound ih =>
    -- Expressions and arguments call each other with the smaller bound.
    obtain ⟨ihTree, ihArgs⟩ := ih
    constructor
    · intro i r tree ok
      rw [readWithin] at ok
      obtain ⟨⟨text, column, rest⟩, hname, ok⟩ := bind_eq_ok.1 ok
      obtain ⟨isName, -, gap, hgap, hchars, rfl, hcolumn⟩ := Input.name_eq_ok_iff.1 hname
      dsimp only at ok
      split at ok
      next =>
        obtain ⟨rfl, rfl⟩ := Prod.mk.inj (Except.ok.inj ok)
        exact ⟨gap, text.toList, hgap, .name isName, hchars, hcolumn⟩
      next inner htake =>
        obtain ⟨⟨args, rest'⟩, hargs, ok⟩ := bind_eq_ok.1 ok
        obtain ⟨rfl, rfl⟩ := Prod.mk.inj (Except.ok.inj ok)
        obtain ⟨gap', hgap', hchars', hcolumn'⟩ := (Input.take?_eq_some_iff (by decide)).1 htake
        obtain ⟨text', spelt, hchars'', hcolumn''⟩ := ihArgs hargs
        rw [hcolumn', hcolumn] at spelt
        refine ⟨gap, _, hgap, .call isName hgap' spelt, ?_, ?_⟩
        · simp [hchars, hchars', hchars'']
        · simp [hcolumn'', hcolumn', hcolumn]
          omega
    · intro i r trees ok
      rw [readArgsWithin] at ok
      obtain ⟨⟨first, rest⟩, hfirst, ok⟩ := bind_eq_ok.1 ok
      obtain ⟨gap, text, hgap, spelt, hchars, hcolumn⟩ := ihTree hfirst
      dsimp only at ok
      split at ok
      next =>
        obtain ⟨rest', hexpect, ok⟩ := bind_eq_ok.1 ok
        obtain ⟨rfl, rfl⟩ := Prod.mk.inj (Except.ok.inj ok)
        obtain ⟨gap', hgap', hchars', hcolumn'⟩ :=
          (Input.take?_eq_some_iff (by decide)).1 (Input.expect_eq_ok_iff.1 hexpect)
        refine ⟨_, .last hgap spelt hgap', ?_, ?_⟩
        · simp [hchars, hchars']
        · simp [hcolumn', hcolumn]
          omega
      next inner htake =>
        obtain ⟨⟨others, rest'⟩, hothers, ok⟩ := bind_eq_ok.1 ok
        obtain ⟨rfl, rfl⟩ := Prod.mk.inj (Except.ok.inj ok)
        obtain ⟨gap', hgap', hchars', hcolumn'⟩ := (Input.take?_eq_some_iff (by decide)).1 htake
        obtain ⟨text', spelt', hchars'', hcolumn''⟩ := ihArgs hothers
        rw [hcolumn', hcolumn] at spelt'
        refine ⟨_, .more hgap spelt hgap' spelt', ?_, ?_⟩
        · simp [hchars, hchars', hchars'']
        · simp [hcolumn'', hcolumn', hcolumn]
          omega

theorem spells_of_read {i r : Input} {tree : ParseTree} (ok : read i = .ok (tree, r)) :
    ∃ gap text, IsGap gap ∧ Spells (i.column + gap.length) text tree ∧
      i.chars = gap ++ text ++ r.chars ∧ r.column = i.column + gap.length + text.length :=
  (spells_of_readWithin _).1 ((read_eq i).symm.trans ok)

/-! ### Completeness -/

/-- After an expression there is neither more of its name nor an argument list. -/
def Follows (after : List Char) : Prop :=
  EndsName after ∧ ∀ start, Input.take? '(' ⟨start, after⟩ = none

theorem follows_sign {gap rest : List Char} (hgap : IsGap gap) {sign : Char}
    (hname : isNameChar sign = false) (hblank : isBlank sign = false) (hopen : sign ≠ '(') :
    Follows (gap ++ sign :: rest) := by
  refine ⟨hgap.endsName_sign hname, fun start => ?_⟩
  rw [Input.take?_append start hgap hblank, if_neg hopen]

theorem follows_gap {gap : List Char} (hgap : IsGap gap) : Follows gap := by
  refine ⟨hgap.endsName, fun start => ?_⟩
  have hskip : Input.skipBlanks ⟨start, gap⟩ = ⟨start + gap.length, []⟩ :=
    Input.skipBlanks_eq_iff.2 ⟨gap, hgap, by simp, rfl, by simp⟩
  simp [Input.take?, hskip]

/-- Wherever the grammar derives the tree, the reader finds it, given a sufficient bound. -/
def IsFound (tree : ParseTree) : Prop :=
  ∀ ⦃start : Nat⦄ ⦃gap text after : List Char⦄ ⦃bound : Nat⦄, IsGap gap →
    Spells (start + gap.length) text tree → Follows after →
    gap.length + text.length + after.length < bound →
    readWithin bound ⟨start, gap ++ text ++ after⟩ =
      .ok (tree, ⟨start + gap.length + text.length, after⟩)

theorem readArgsWithin_eq_ok {trees : List ParseTree} {column : Nat} {text after : List Char}
    (spelt : SpellsArgs Spells column text trees) (each : ∀ tree ∈ trees, tree.IsFound)
    {bound : Nat} (lt : text.length + after.length + 1 < bound) :
    readArgsWithin bound ⟨column, text ++ after⟩ = .ok (trees, ⟨column + text.length, after⟩) := by
  -- The induction is on the derivation of the list; each argument is found by its own hypothesis.
  induction spelt generalizing bound with
  | @last column gap text gap' tree before arg gapAfter =>
    obtain ⟨bound, rfl⟩ : ∃ b, bound = b + 1 := ⟨bound - 1, by omega⟩
    have follows : Follows (gap' ++ ')' :: after) :=
      follows_sign gapAfter (by decide) (by decide) (by decide)
    have hfirst : readWithin bound ⟨column, gap ++ text ++ (gap' ++ ')' :: after)⟩ =
        .ok (tree, ⟨column + gap.length + text.length, gap' ++ ')' :: after⟩) := by
      refine each tree List.mem_cons_self before arg follows ?_
      simp only [List.length_append, List.length_cons, List.length_nil] at lt ⊢
      omega
    rw [show gap ++ text ++ gap' ++ [')'] ++ after = gap ++ text ++ (gap' ++ ')' :: after) by simp,
      readArgsWithin]
    refine bind_eq_ok.2 ⟨_, hfirst, ?_⟩
    dsimp only
    rw [Input.take?_append _ gapAfter (by decide), if_neg (by decide)]
    refine bind_eq_ok.2 ⟨_, Input.expect_eq_ok_iff.2 ?_, rfl⟩
    rw [Input.take?_append _ gapAfter (by decide), if_pos rfl]
    simp
    omega
  | @more column gap text gap' rest tree trees before arg gapAfter others ih =>
    obtain ⟨bound, rfl⟩ : ∃ b, bound = b + 1 := ⟨bound - 1, by omega⟩
    have follows : Follows (gap' ++ ',' :: (rest ++ after)) :=
      follows_sign gapAfter (by decide) (by decide) (by decide)
    have hfirst : readWithin bound ⟨column, gap ++ text ++ (gap' ++ ',' :: (rest ++ after))⟩ =
        .ok (tree, ⟨column + gap.length + text.length, gap' ++ ',' :: (rest ++ after)⟩) := by
      refine each tree List.mem_cons_self before arg follows ?_
      simp only [List.length_append, List.length_cons] at lt ⊢
      omega
    have hothers : readArgsWithin bound
        ⟨column + gap.length + text.length + gap'.length + 1, rest ++ after⟩ = .ok (trees,
          ⟨column + gap.length + text.length + gap'.length + 1 + rest.length, after⟩) := by
      refine ih (fun t ht => each t (List.mem_cons_of_mem _ ht)) ?_
      simp only [List.length_append, List.length_cons] at lt
      omega
    rw [show gap ++ text ++ gap' ++ ',' :: rest ++ after =
      gap ++ text ++ (gap' ++ ',' :: (rest ++ after)) by simp, readArgsWithin]
    refine bind_eq_ok.2 ⟨_, hfirst, ?_⟩
    dsimp only
    rw [Input.take?_append _ gapAfter (by decide), if_pos rfl]
    refine bind_eq_ok.2 ⟨_, hothers, ?_⟩
    simp [pure, Except.pure]
    omega

theorem isFound (tree : ParseTree) : tree.IsFound := by
  induction tree with
  | equality lhs rhs _ _ =>
    intro start gap text after bound _ spelt
    cases spelt
  | name text args column ih =>
    intro start gap text' after bound hgap spelt follows lt
    obtain ⟨bound, rfl⟩ : ∃ b, bound = b + 1 := ⟨bound - 1, by omega⟩
    rw [readWithin]
    cases spelt with
    | name isName =>
      have hname : Input.name ⟨start, gap ++ text.toList ++ after⟩ = .ok (text, start + gap.length,
          ⟨start + gap.length + text.toList.length, after⟩) :=
        Input.name_eq_ok_iff.2 ⟨isName, follows.1, gap, hgap, rfl, rfl, rfl⟩
      refine bind_eq_ok.2 ⟨_, hname, ?_⟩
      dsimp only
      rw [follows.2]
      rfl
    | @call _ _ gap' inner _ isName hgap' spelt =>
      have hname : Input.name ⟨start, gap ++ (text.toList ++ gap' ++ '(' :: inner) ++ after⟩ =
          .ok (text, start + gap.length,
            ⟨start + gap.length + text.toList.length, gap' ++ '(' :: (inner ++ after)⟩) :=
        Input.name_eq_ok_iff.2
          ⟨isName, hgap'.endsName_sign (by decide), gap, hgap, by simp, rfl, rfl⟩
      have hargs : readArgsWithin bound
          ⟨start + gap.length + text.toList.length + gap'.length + 1, inner ++ after⟩ = .ok (args,
            ⟨start + gap.length + text.toList.length + gap'.length + 1 + inner.length, after⟩) := by
        refine readArgsWithin_eq_ok spelt ih ?_
        -- The name and the parenthesis are two characters at least, and two is what is needed.
        have hpos := List.length_pos_iff.2 isName.1
        simp only [List.length_append, List.length_cons] at lt
        omega
      refine bind_eq_ok.2 ⟨_, hname, ?_⟩
      dsimp only
      rw [Input.take?_append _ hgap' (by decide), if_pos rfl]
      refine bind_eq_ok.2 ⟨_, hargs, ?_⟩
      simp [pure, Except.pure]
      omega

theorem read_eq_ok {start : Nat} {gap text after : List Char} {tree : ParseTree} (hgap : IsGap gap)
    (spelt : Spells (start + gap.length) text tree) (follows : Follows after) :
    read ⟨start, gap ++ text ++ after⟩ = .ok (tree, ⟨start + gap.length + text.length, after⟩) := by
  rw [read_eq]
  refine tree.isFound hgap spelt follows ?_
  simp only [List.length_append]
  omega

theorem readLine_eq_ok_iff {line : List Char} {tree : ParseTree} :
    readLine line = .ok tree ↔ IsLine line tree := by
  constructor
  · intro ok
    obtain ⟨⟨lhs, r₁⟩, hlhs, ok⟩ := bind_eq_ok.1 ok
    obtain ⟨r₂, hexpect, ok⟩ := bind_eq_ok.1 ok
    obtain ⟨⟨rhs, r₃⟩, hrhs, ok⟩ := bind_eq_ok.1 ok
    obtain ⟨gap₀, left, h₀, leftSide, hchars₁, hcolumn₁⟩ := spells_of_read hlhs
    obtain ⟨gap₁, h₁, hchars₂, hcolumn₂⟩ :=
      (Input.take?_eq_some_iff (by decide)).1 (Input.expect_eq_ok_iff.1 hexpect)
    obtain ⟨gap₂, right, h₂, rightSide, hchars₃, -⟩ := spells_of_read hrhs
    obtain ⟨gap₃, h₃, hchars₄, -, -⟩ := Input.skipBlanks_eq_iff.1 (@rfl _ r₃.skipBlanks)
    dsimp only at ok
    split at ok
    next => cases ok
    next hnone =>
      obtain rfl := Except.ok.inj ok
      have hend : r₃.skipBlanks.chars = [] := List.head?_eq_none_iff.1 hnone
      have hline : line = gap₀ ++ left ++ gap₁ ++ '=' :: (gap₂ ++ right ++ gap₃) := by
        rw [show line = (Input.ofLine line).chars from rfl, hchars₁, hchars₂, hchars₃, hchars₄,
          hend]
        simp
      rw [hcolumn₂, hcolumn₁] at rightSide
      simp only [Input.ofLine, Nat.zero_add] at leftSide rightSide
      rw [hline]
      exact .equality h₀ leftSide h₁ h₂ rightSide h₃
  · rintro ⟨h₀, leftSide, h₁, h₂, rightSide, h₃⟩
    rename_i gap₀ left gap₁ gap₂ right gap₃ lhs rhs
    have follows : Follows (gap₁ ++ '=' :: (gap₂ ++ right ++ gap₃)) :=
      follows_sign h₁ (by decide) (by decide) (by decide)
    have hlhs := read_eq_ok h₀ ((Nat.zero_add gap₀.length).symm ▸ leftSide) follows
    have hrhs := read_eq_ok h₂ rightSide (follows_gap h₃)
    have hskip : Input.skipBlanks ⟨gap₀.length + left.length + gap₁.length + 1 + gap₂.length +
        right.length, gap₃⟩ = ⟨_, []⟩ :=
      Input.skipBlanks_eq_iff.2 ⟨gap₃, h₃, by simp, rfl, by simp⟩
    rw [readLine, Input.ofLine, show gap₀ ++ left ++ gap₁ ++ '=' :: (gap₂ ++ right ++ gap₃) =
      gap₀ ++ left ++ (gap₁ ++ '=' :: (gap₂ ++ right ++ gap₃)) by simp]
    refine bind_eq_ok.2 ⟨_, hlhs, bind_eq_ok.2 ⟨_, Input.expect_eq_ok_iff.2 ?_,
      bind_eq_ok.2 ⟨_, hrhs, ?_⟩⟩⟩
    · rw [Nat.zero_add, Input.take?_append _ h₁ (by decide), if_pos rfl]
    · dsimp only
      rw [hskip]
      rfl

/-! ### Names as runs -/

/-- The name stands at the column, and neither end of it can be moved outwards. -/
def IsRun (line : List Char) (name : String) (column : Nat) : Prop :=
  ∃ before after, line = before ++ name.toList ++ after ∧ before.length = column ∧ IsName name ∧
    EndsName before.reverse ∧ EndsName after

/-- The name stands in the tree, with the given column. -/
inductive Mentions (name : String) (column : Nat) : ParseTree → Prop
  | here {args : List ParseTree} : Mentions name column (.name name args column)
  | arg {text : String} {args : List ParseTree} {start : Nat} {tree : ParseTree} (mem : tree ∈ args)
      (mentions : Mentions name column tree) : Mentions name column (.name text args start)
  | lhs {lhs rhs : ParseTree} (mentions : Mentions name column lhs) :
      Mentions name column (.equality lhs rhs)
  | rhs {lhs rhs : ParseTree} (mentions : Mentions name column rhs) :
      Mentions name column (.equality lhs rhs)

/-- Wherever the grammar derives the tree between ends of names, its names are runs. -/
def HasRuns (tree : ParseTree) : Prop :=
  ∀ ⦃before text after : List Char⦄, Spells before.length text tree → EndsName before.reverse →
    EndsName after → ∀ ⦃name : String⦄ ⦃column : Nat⦄, Mentions name column tree →
      IsRun (before ++ text ++ after) name column

theorem endsName_reverse_sign {gap before : List Char} (hgap : IsGap gap) {sign : Char}
    (hsign : isNameChar sign = false) : EndsName (before ++ sign :: gap).reverse := by
  rw [List.reverse_append, List.reverse_cons, List.append_assoc]
  have hgap' : IsGap gap.reverse := fun c hc => hgap c (List.mem_reverse.1 hc)
  exact hgap'.endsName_sign hsign

/-- An argument stands between two signs. -/
theorem HasRuns.isRun_arg {tree : ParseTree} (runs : tree.HasRuns)
    {before gap text gap' rest : List Char} {sign sign' : Char} (hsign : isNameChar sign = false)
    (hgap : IsGap gap) (arg : Spells (before.length + 1 + gap.length) text tree)
    (hgap' : IsGap gap') (hsign' : isNameChar sign' = false) {name : String} {column : Nat}
    (mentions : Mentions name column tree) :
    IsRun (before ++ sign :: (gap ++ text ++ gap' ++ sign' :: rest)) name column := by
  have hlength : (before ++ sign :: gap).length = before.length + 1 + gap.length := by
    simp only [List.length_append, List.length_cons]
    omega
  have hafter : EndsName (gap' ++ sign' :: rest) := hgap'.endsName_sign hsign'
  rw [show before ++ sign :: (gap ++ text ++ gap' ++ sign' :: rest) =
    before ++ sign :: gap ++ text ++ (gap' ++ sign' :: rest) by simp]
  exact runs (hlength ▸ arg) (endsName_reverse_sign hgap hsign) hafter mentions

theorem isRun_of_spellsArgs {trees : List ParseTree} {start : Nat} {text after before : List Char}
    {sign : Char} (spelt : SpellsArgs Spells start text trees) (each : ∀ tree ∈ trees, tree.HasRuns)
    (length : before.length + 1 = start) (hsign : isNameChar sign = false) {tree : ParseTree}
    (mem : tree ∈ trees) {name : String} {column : Nat} (mentions : Mentions name column tree) :
    IsRun (before ++ sign :: (text ++ after)) name column := by
  induction spelt generalizing before sign with
  | @last start gap text gap' tree' hgap arg hgap' =>
    obtain rfl := List.mem_singleton.1 mem
    obtain rfl := length
    rw [show gap ++ text ++ gap' ++ [')'] ++ after = gap ++ text ++ gap' ++ ')' :: after by simp]
    exact (each tree mem).isRun_arg hsign hgap arg hgap' (by decide) mentions
  | @more start gap text gap' rest tree' trees hgap arg hgap' others ih =>
    obtain rfl := length
    rcases List.mem_cons.1 mem with rfl | mem
    · rw [show gap ++ text ++ gap' ++ ',' :: rest ++ after =
        gap ++ text ++ gap' ++ ',' :: (rest ++ after) by simp]
      exact (each tree List.mem_cons_self).isRun_arg hsign hgap arg hgap' (by decide) mentions
    · -- The comma is the sign before the other arguments.
      rw [show before ++ sign :: (gap ++ text ++ gap' ++ ',' :: rest ++ after) =
        before ++ sign :: (gap ++ text ++ gap') ++ ',' :: (rest ++ after) by simp]
      refine ih (fun t ht => each t (List.mem_cons_of_mem _ ht)) ?_ (by decide) mem
      simp only [List.length_append, List.length_cons]
      omega

theorem hasRuns (tree : ParseTree) : tree.HasRuns := by
  induction tree with
  | equality lhs rhs _ _ =>
    intro before text after spelt
    cases spelt
  | name text args start ih =>
    intro before text' after spelt hbefore hafter name column mentions
    cases spelt with
    | name isName =>
      cases mentions with
      | here => exact ⟨before, after, rfl, rfl, isName, hbefore, hafter⟩
      | arg mem _ => cases mem
    | @call _ _ gap inner _ isName hgap spelt =>
      cases mentions with
      | here =>
        refine ⟨before, gap ++ '(' :: (inner ++ after), by simp, rfl, isName, hbefore, ?_⟩
        exact hgap.endsName_sign (by decide)
      | arg mem mentions =>
        rw [show before ++ (text.toList ++ gap ++ '(' :: inner) ++ after =
          before ++ text.toList ++ gap ++ '(' :: (inner ++ after) by simp]
        refine isRun_of_spellsArgs spelt ih ?_ (by decide) mem mentions
        simp only [List.length_append]

theorem IsLine.isRun {line : List Char} {tree : ParseTree} (isLine : IsLine line tree)
    {name : String} {column : Nat} (mentions : Mentions name column tree) :
    IsRun line name column := by
  obtain ⟨h₀, leftSide, h₁, h₂, rightSide, h₃⟩ := isLine
  rename_i gap₀ left gap₁ gap₂ right gap₃ lhs rhs
  cases mentions with
  | lhs mentions =>
    have hbefore : IsGap gap₀.reverse := fun c hc => h₀ c (List.mem_reverse.1 hc)
    have hafter : EndsName (gap₁ ++ '=' :: (gap₂ ++ right ++ gap₃)) := h₁.endsName_sign (by decide)
    have run := lhs.hasRuns leftSide hbefore.endsName hafter mentions
    rwa [← List.append_assoc] at run
  | rhs mentions =>
    have hlength : (gap₀ ++ left ++ gap₁ ++ '=' :: gap₂).length =
        gap₀.length + left.length + gap₁.length + 1 + gap₂.length := by
      simp only [List.length_append, List.length_cons]
      omega
    have hbefore : EndsName (gap₀ ++ left ++ gap₁ ++ '=' :: gap₂).reverse :=
      endsName_reverse_sign h₂ (by decide)
    have run := rhs.hasRuns (hlength ▸ rightSide) hbefore h₃.endsName mentions
    rwa [show gap₀ ++ left ++ gap₁ ++ '=' :: (gap₂ ++ right ++ gap₃) =
      gap₀ ++ left ++ gap₁ ++ '=' :: gap₂ ++ right ++ gap₃ by simp]

/-- **The reader of lines.** It accepts exactly the lines of the grammar and gives their tree; a
line has no other tree; and each name of the tree is a longest run of name characters, with as
many characters of the line before it as its column says. -/
theorem readLine_accepts_grammar (line : List Char) :
    (∀ tree, readLine line = .ok tree ↔ IsLine line tree) ∧
      (∀ tree tree', IsLine line tree → IsLine line tree' → tree = tree') ∧
      ∀ tree, IsLine line tree → ∀ name column, Mentions name column tree →
        IsRun line name column := by
  refine ⟨fun tree => readLine_eq_ok_iff, ?_, ?_⟩
  · intro tree tree' h h'
    exact Except.ok.inj ((readLine_eq_ok_iff.2 h).symm.trans (readLine_eq_ok_iff.2 h'))
  · intro tree h name column mentions
    exact h.isRun mentions

/-- The second argument starts behind the comma and the blank, and no comma can be left out. -/
theorem readLine_accepts_grammar_comma :
    ∃ tree, readLine "f(x, y) = -".toList = .ok tree ∧ Mentions "y" 5 tree ∧
      IsRun "f(x, y) = -".toList "y" 5 ∧ ¬∃ tree, IsLine "f(x y) = -".toList tree := by
  have x : Spells 2 "x".toList (.name "x" [] 2) := .name (by decide)
  have y : Spells 5 "y".toList (.name "y" [] 5) := .name (by decide)
  have lhs : Spells 0 _ (.name "f" [.name "x" [] 2, .name "y" [] 5] 0) :=
    .call (by decide) isGap_nil
      (.more isGap_nil x isGap_nil (.last isGap_blank y isGap_nil))
  have rhs : Spells 10 "-".toList (.name "-" [] 10) := .name (by decide)
  have hline : IsLine "f(x, y) = -".toList (.equality
      (.name "f" [.name "x" [] 2, .name "y" [] 5] 0) (.name "-" [] 10)) :=
    .equality isGap_nil lhs isGap_blank isGap_blank rhs isGap_nil
  have hmentions : Mentions "y" 5 (.equality
      (.name "f" [.name "x" [] 2, .name "y" [] 5] 0) (.name "-" [] 10)) :=
    .lhs (.arg (List.mem_cons_of_mem _ List.mem_cons_self) .here)
  obtain ⟨hreads, -, hruns⟩ := readLine_accepts_grammar "f(x, y) = -".toList
  refine ⟨_, (hreads _).2 hline, hmentions, hruns _ hline _ _ hmentions, ?_⟩
  rintro ⟨tree, hline'⟩
  have hread := ((readLine_accepts_grammar _).1 tree).2 hline'
  have hrefused : (readLine "f(x y) = -".toList).isOk = false := by decide +kernel
  rw [hread] at hrefused
  cases hrefused

end ParseTree

end Equational
