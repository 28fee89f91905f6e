import Equational.Proofs.Grammar

/-!
# Errors point at the first character that cannot go on

A line that is refused can be mended up to the place of the error and no further: what stands before
the place is the beginning of a line that is accepted, and no line that is accepted begins with one
character more (`ParseTree.readLine_fails_exactly`). So the reader never looks ahead of the place
it tells, though it skips blanks to look for a parenthesis or a comma.

The first half is about completing what was read: whatever stage the reader has come to, the rest of
a line is easily made up. The second half compares two readings. Inputs with the same characters up
to a sign that is not blank are read alike, as long as the sign is not passed.
-/

namespace Equational

open Text

namespace ParseTree

/-! ### What was read can be completed -/

/-- The error is at a place of the input that no blank stands at, and what comes before this place
can be completed to a text with the property. -/
structure Completes (i : Input) (e : ReadError) (accepts : List Char → Prop) : Prop where
  line : e.line = 0
  split : ∃ before after, i.chars = before ++ after ∧ e.column = i.column + before.length ∧
    (∀ c ∈ after.head?, isBlank c = false) ∧ ∃ more, accepts (before ++ more)

namespace Completes

variable {i r : Input} {e : ReadError} {accepts accepts' : List Char → Prop}

/-- An error after the blanks. -/
theorem of_skipBlanks (line : e.line = 0) (column : e.column = i.skipBlanks.column)
    (more : ∀ gap, IsGap gap → ∃ more, accepts (gap ++ more)) : Completes i e accepts := by
  obtain ⟨gap, hgap, hchars, hcolumn, hhead⟩ := Input.skipBlanks_eq_iff.1 (@rfl _ i.skipBlanks)
  exact ⟨line, gap, _, hchars, column.trans hcolumn, hhead, more gap hgap⟩

/-- An error after a first part that was read. -/
theorem after {first : List Char} (completes : Completes r e accepts')
    (chars : i.chars = first ++ r.chars) (column : r.column = i.column + first.length)
    (extend : ∀ text, accepts' text → ∃ more, accepts (first ++ text ++ more)) :
    Completes i e accepts := by
  obtain ⟨line, before, rest, hchars, hcolumn, hhead, more, hmore⟩ := completes
  obtain ⟨more', hmore'⟩ := extend _ hmore
  refine ⟨line, first ++ before, rest, ?_, ?_, hhead, more ++ more', ?_⟩
  · rw [chars, hchars, List.append_assoc]
  · rw [hcolumn, column, List.length_append, Nat.add_assoc]
  · simpa using hmore'

end Completes

/-- Blanks and an expression. -/
def IsExpression (column : Nat) (text : List Char) : Prop :=
  ∃ gap spelt tree, IsGap gap ∧ Spells (column + gap.length) spelt tree ∧ text = gap ++ spelt

/-- Arguments up to the closing parenthesis. -/
def IsArguments (column : Nat) (text : List Char) : Prop :=
  ∃ trees, SpellsArgs Spells column text trees

theorem isExpression_gap {column : Nat} {gap : List Char} (hgap : IsGap gap) :
    IsExpression column (gap ++ ['x']) :=
  ⟨gap, "x".toList, .name "x" [] (column + gap.length), hgap, .name (by decide), rfl⟩

theorem of_name_error {i : Input} {e : ReadError} (error : i.name = .error e) :
    e.line = 0 ∧ e.column = i.skipBlanks.column := by
  rw [Input.name] at error
  split at error
  next =>
    obtain rfl := Except.error.inj error
    exact ⟨rfl, rfl⟩
  next => cases error

theorem of_expect_error {sign : Char} {i : Input} {e : ReadError}
    (error : i.expect sign = .error e) : e.line = 0 ∧ e.column = i.skipBlanks.column := by
  rw [Input.expect] at error
  split at error
  next => cases error
  next =>
    obtain rfl := Except.error.inj error
    exact ⟨rfl, rfl⟩

section Completing

variable {bound : Nat}
  (ihArgs : ∀ {i : Input} {e : ReadError}, i.chars.length + 1 < bound →
    readArgsWithin bound i = .error e → Completes i e (IsArguments i.column))

include ihArgs

/-- An expression fails at its name or in its arguments. -/
theorem completes_of_readWithin_succ {i : Input} {e : ReadError}
    (lt : i.chars.length < bound + 1) (error : readWithin (bound + 1) i = .error e) :
    Completes i e (IsExpression i.column) := by
  rw [readWithin] at error
  rcases bind_eq_error.1 error with hname | ⟨⟨text, column, rest⟩, hname, error⟩
  · obtain ⟨hline, hcolumn⟩ := of_name_error hname
    exact .of_skipBlanks hline hcolumn fun gap hgap => ⟨['x'], isExpression_gap hgap⟩
  · have hrest := Input.length_lt_of_name hname
    obtain ⟨isName, -, gap, hgap, hchars, rfl, hcolumn⟩ := Input.name_eq_ok_iff.1 hname
    dsimp only at error
    split at error
    next => cases error
    next inner htake =>
      have hinner := Input.length_lt_of_take? (by decide) htake
      obtain ⟨gap', hgap', hchars', hcolumn'⟩ := (Input.take?_eq_some_iff (by decide)).1 htake
      rcases bind_eq_error.1 error with hargs | ⟨_, -, error⟩
      · have hfirst : i.chars = gap ++ text.toList ++ gap' ++ ['('] ++ inner.chars := by
          simp [hchars, hchars']
        refine (ihArgs (by omega) hargs).after hfirst (by simp [hcolumn', hcolumn]; omega) ?_
        rintro spelt ⟨trees, each⟩
        rw [hcolumn', hcolumn] at each
        exact ⟨[], gap, _, _, hgap, .call isName hgap' each, by simp⟩
      · cases error

/-- Arguments fail in the first one, behind it, or in the others. -/
theorem completes_of_readArgsWithin_succ
    (ihTree : ∀ {i : Input} {e : ReadError}, i.chars.length < bound →
      readWithin bound i = .error e → Completes i e (IsExpression i.column))
    {i : Input} {e : ReadError} (lt : i.chars.length + 1 < bound + 1)
    (error : readArgsWithin (bound + 1) i = .error e) :
    Completes i e (IsArguments i.column) := by
  rw [readArgsWithin] at error
  rcases bind_eq_error.1 error with hfirst | ⟨⟨tree, rest⟩, hfirst, error⟩
  · refine (ihTree (by omega) hfirst).after (List.nil_append _).symm rfl ?_
    rintro text ⟨gap, spelt, tree, hgap, hspelt, rfl⟩
    exact ⟨[')'], [tree], by simpa using SpellsArgs.last hgap hspelt isGap_nil⟩
  · have hrest := (length_lt_of_readWithin _).1 hfirst
    obtain ⟨gap, spelt, hgap, hspelt, hchars, hcolumn⟩ := (spells_of_readWithin bound).1 hfirst
    have hcolumn' : rest.column = i.column + (gap ++ spelt).length := by
      rw [hcolumn, List.length_append, Nat.add_assoc]
    dsimp only at error
    split at error
    next =>
      rcases bind_eq_error.1 error with hexpect | ⟨_, -, error⟩
      · obtain ⟨hline, hplace⟩ := of_expect_error hexpect
        have closes : Completes rest e fun text => ∃ gap', IsGap gap' ∧ text = gap' ++ [')'] :=
          .of_skipBlanks hline hplace fun gap' hgap' => ⟨[')'], gap', hgap', rfl⟩
        refine closes.after hchars hcolumn' ?_
        rintro text ⟨gap', hgap', rfl⟩
        exact ⟨[], [tree], by simpa using SpellsArgs.last hgap hspelt hgap'⟩
      · cases error
    next inner htake =>
      have hinner := Input.length_lt_of_take? (by decide) htake
      obtain ⟨gap', hgap', hchars', hplace⟩ := (Input.take?_eq_some_iff (by decide)).1 htake
      rcases bind_eq_error.1 error with hothers | ⟨_, -, error⟩
      · have hfirst : i.chars = gap ++ spelt ++ gap' ++ [','] ++ inner.chars := by
          simp [hchars, hchars']
        refine (ihArgs (by omega) hothers).after hfirst (by simp [hplace, hcolumn]; omega) ?_
        rintro text ⟨trees, each⟩
        rw [hplace, hcolumn] at each
        exact ⟨[], tree :: trees, by simpa using SpellsArgs.more hgap hspelt hgap' each⟩
      · cases error

end Completing

theorem completes_of_error (bound : Nat) :
    (∀ {i : Input} {e : ReadError}, i.chars.length < bound → readWithin bound i = .error e →
      Completes i e (IsExpression i.column)) ∧
    ∀ {i : Input} {e : ReadError}, i.chars.length + 1 < bound → readArgsWithin bound i = .error e →
      Completes i e (IsArguments i.column) := by
  induction bound with
  | zero =>
    constructor
    · intro i e lt
      omega
    · intro i e lt
      omega
  | succ bound ih =>
    obtain ⟨ihTree, ihArgs⟩ := ih
    constructor
    · intro i e
      exact completes_of_readWithin_succ ihArgs
    · intro i e
      exact completes_of_readArgsWithin_succ ihArgs ihTree

theorem completes_of_read {i : Input} {e : ReadError} (error : read i = .error e) :
    Completes i e (IsExpression i.column) :=
  (completes_of_error _).1 (Nat.lt_succ_self _) ((read_eq i).symm.trans error)

theorem completes_of_readLine {line : List Char} {e : ReadError}
    (error : readLine line = .error e) :
    Completes (.ofLine line) e fun text => ∃ tree, IsLine text tree := by
  rcases bind_eq_error.1 error with hlhs | ⟨⟨lhs, r₁⟩, hlhs, error⟩
  · refine (completes_of_read hlhs).after (List.nil_append _).symm rfl ?_
    rintro text ⟨gap, left, lhs, hgap, hleft, rfl⟩
    have hright : Spells (gap.length + left.length + 0 + 1 + 0) "x".toList
        (.name "x" [] (gap.length + left.length + 0 + 1 + 0)) := .name (by decide)
    rw [Input.ofLine, Nat.zero_add] at hleft
    have hline := IsLine.equality hgap hleft isGap_nil isGap_nil hright isGap_nil
    exact ⟨['=', 'x'], _, by simpa using hline⟩
  · obtain ⟨gap₀, left, h₀, hleft, hchars₁, hcolumn₁⟩ := spells_of_read hlhs
    simp only [Input.ofLine, Nat.zero_add] at hleft hchars₁ hcolumn₁
    dsimp only at error
    rcases bind_eq_error.1 error with hexpect | ⟨r₂, hexpect, error⟩
    · obtain ⟨hline, hplace⟩ := of_expect_error hexpect
      have equals : Completes r₁ e fun text => ∃ gap, IsGap gap ∧ text = gap ++ ['=', 'x'] :=
        .of_skipBlanks hline hplace fun gap hgap => ⟨['=', 'x'], gap, hgap, rfl⟩
      refine equals.after hchars₁ (by simp [hcolumn₁, Input.ofLine]) ?_
      rintro text ⟨gap₁, h₁, rfl⟩
      have hright : Spells (gap₀.length + left.length + gap₁.length + 1 + 0) "x".toList
          (.name "x" [] (gap₀.length + left.length + gap₁.length + 1 + 0)) := .name (by decide)
      have hline := IsLine.equality h₀ hleft h₁ isGap_nil hright isGap_nil
      exact ⟨[], _, by simpa using hline⟩
    · obtain ⟨gap₁, h₁, hchars₂, hcolumn₂⟩ :=
        (Input.take?_eq_some_iff (by decide)).1 (Input.expect_eq_ok_iff.1 hexpect)
      have hfront : line = gap₀ ++ left ++ gap₁ ++ ['='] ++ r₂.chars := by
        simp [hchars₁, hchars₂]
      have hplace : r₂.column = gap₀.length + left.length + gap₁.length + 1 := by
        rw [hcolumn₂, hcolumn₁]
      rcases bind_eq_error.1 error with hrhs | ⟨⟨rhs, r₃⟩, hrhs, error⟩
      · refine (completes_of_read hrhs).after hfront (by simp [hplace, Input.ofLine]; omega) ?_
        rintro text ⟨gap₂, right, rhs, h₂, hright, rfl⟩
        rw [hplace] at hright
        have hline := IsLine.equality h₀ hleft h₁ h₂ hright isGap_nil
        exact ⟨[], _, by simpa using hline⟩
      · obtain ⟨gap₂, right, h₂, hright, hchars₃, hcolumn₃⟩ := spells_of_read hrhs
        rw [hplace] at hright
        dsimp only at error
        split at error
        next found hfound =>
          obtain rfl := Except.error.inj error
          have ends : Completes r₃ ⟨0, r₃.skipBlanks.column, .unexpected found⟩ IsGap :=
            .of_skipBlanks rfl rfl fun gap hgap => ⟨[], by simpa using hgap⟩
          have hall : line = gap₀ ++ left ++ gap₁ ++ ['='] ++ gap₂ ++ right ++ r₃.chars := by
            rw [hfront, hchars₃]
            simp
          refine ends.after hall (by simp [hcolumn₃, hplace, Input.ofLine]; omega) ?_
          intro gap₃ h₃
          have hline := IsLine.equality h₀ hleft h₁ h₂ hright h₃
          exact ⟨[], _, by simpa using hline⟩
        next => cases error

/-! ### Readings end where they fail or leave off -/

/-- The column where a reading ends. -/
def ending {α : Type} : Except ReadError (α × Input) → Nat
  | .ok (_, r) => r.column
  | .error e => e.column

theorem Completes.le_column {i : Input} {e : ReadError} {accepts : List Char → Prop}
    (completes : Completes i e accepts) : i.column ≤ e.column := by
  obtain ⟨-, before, after, -, hcolumn, -⟩ := completes
  omega

theorem le_ending_readWithin {bound : Nat} {i : Input} (lt : i.chars.length < bound) :
    i.column ≤ ending (readWithin bound i) := by
  cases hread : readWithin bound i with
  | error e => exact ((completes_of_error bound).1 lt hread).le_column
  | ok result =>
    obtain ⟨tree, r⟩ := result
    obtain ⟨gap, text, -, -, -, hcolumn⟩ := (spells_of_readWithin bound).1 hread
    show i.column ≤ r.column
    omega

theorem le_ending_readArgsWithin {bound : Nat} {i : Input} (lt : i.chars.length + 1 < bound) :
    i.column ≤ ending (readArgsWithin bound i) := by
  cases hread : readArgsWithin bound i with
  | error e => exact ((completes_of_error bound).2 lt hread).le_column
  | ok result =>
    obtain ⟨trees, r⟩ := result
    obtain ⟨text, -, -, hcolumn⟩ := (spells_of_readWithin bound).2 hread
    show i.column ≤ r.column
    omega

end ParseTree

/-! ### Inputs that are the same up to a sign -/

/-- A run of characters goes over the sign, or ends before it, whatever comes after the sign. -/
theorem Text.run_cases (p : Char → Bool) (before : List Char) (c : Char) :
    (∀ d ∈ before ++ [c], p d = true) ∨
      ∃ body left, before = body ++ left ∧ (∀ d ∈ body, p d = true) ∧
        ∀ rest, ∀ d ∈ (left ++ c :: rest).head?, p d = false := by
  obtain ⟨hsplit, hbody, hhead⟩ := takeWhile_and_drop_iff.1 ⟨@rfl _ (before.takeWhile p), rfl⟩
  generalize before.takeWhile p = body at hsplit hbody hhead
  generalize before.drop body.length = left at hsplit hhead
  cases left with
  | nil =>
    rw [List.append_nil] at hsplit
    subst hsplit
    cases hc : p c with
    | true =>
      left
      intro d hd
      rcases List.mem_append.1 hd with hd | hd
      · exact hbody d hd
      · rw [List.mem_singleton.1 hd, hc]
    | false => exact .inr ⟨before, [], (List.append_nil before).symm, hbody, by simpa using hc⟩
  | cons d left => exact .inr ⟨body, d :: left, hsplit, hbody, by simpa using hhead⟩

section Alike

variable {place : Nat} {c : Char} {rest rest' : List Char}

/-- Both inputs have the same characters up to the sign at the place, and may differ after it. -/
def Input.SameTo (place : Nat) (c : Char) (rest rest' : List Char) (i i' : Input) : Prop :=
  ∃ column before, i = ⟨column, before ++ c :: rest⟩ ∧ i' = ⟨column, before ++ c :: rest'⟩ ∧
    column + before.length = place

namespace Input.SameTo

variable {i i' : Input}

theorem skipBlanks (same : SameTo place c rest rest' i i') (visible : isBlank c = false) :
    SameTo place c rest rest' i.skipBlanks i'.skipBlanks := by
  obtain ⟨column, before, rfl, rfl, rfl⟩ := same
  rcases run_cases isBlank before c with hall | ⟨gap, left, rfl, hgap, hhead⟩
  · rw [hall c (by simp)] at visible
    cases visible
  · have hskip (rest : List Char) : Input.skipBlanks ⟨column, gap ++ left ++ c :: rest⟩ =
        ⟨column + gap.length, left ++ c :: rest⟩ :=
      skipBlanks_eq_iff.2 ⟨gap, hgap, List.append_assoc _ _ _, rfl, hhead rest⟩
    refine ⟨column + gap.length, left, hskip rest, hskip rest', ?_⟩
    rw [List.length_append, Nat.add_assoc]

theorem take? (same : SameTo place c rest rest' i i') (visible : isBlank c = false) (sign : Char) :
    i.take? sign = none ∧ i'.take? sign = none ∨
      ∃ r r', i.take? sign = some r ∧ i'.take? sign = some r' ∧
        (place < r.column ∨ SameTo place c rest rest' r r') := by
  obtain ⟨column, before, hskip, hskip', hplace⟩ := same.skipBlanks visible
  rw [Input.take?, Input.take?, hskip, hskip']
  cases before with
  | nil =>
    by_cases hsign : c = sign
    · right
      refine ⟨⟨column + 1, rest⟩, ⟨column + 1, rest'⟩, if_pos hsign, if_pos hsign, .inl ?_⟩
      simp at hplace ⊢
      omega
    · exact .inl ⟨if_neg hsign, if_neg hsign⟩
  | cons d before =>
    by_cases hsign : d = sign
    · right
      refine ⟨⟨column + 1, before ++ c :: rest⟩, ⟨column + 1, before ++ c :: rest'⟩,
        if_pos hsign, if_pos hsign, .inr ⟨column + 1, before, rfl, rfl, ?_⟩⟩
      simp at hplace ⊢
      omega
    · exact .inl ⟨if_neg hsign, if_neg hsign⟩

theorem name (same : SameTo place c rest rest' i i') (visible : isBlank c = false) :
    (∃ e e', i.name = .error e ∧ i'.name = .error e') ∨
      ∃ text column r, i.name = .ok (text, column, r) ∧
        (place < r.column ∨ ∃ r', i'.name = .ok (text, column, r') ∧
          SameTo place c rest rest' r r') := by
  obtain ⟨column, before, hskip, hskip', hplace⟩ := same.skipBlanks visible
  rw [Input.name, Input.name, hskip, hskip']
  dsimp only
  rcases run_cases isNameChar before c with hall | ⟨body, left, rfl, hbody, hhead⟩
  · -- The name goes over the sign.
    right
    have htake : (before ++ c :: rest).takeWhile isNameChar =
        before ++ [c] ++ rest.takeWhile isNameChar := by
      rw [← List.takeWhile_append_of_pos hall]
      simp
    rw [htake]
    refine ⟨_, _, _, if_neg (by simp), .inl ?_⟩
    simp
    omega
  · have hrun (rest : List Char) := takeWhile_and_drop_iff.2
      ⟨List.append_assoc body left (c :: rest), hbody, hhead rest⟩
    rw [(hrun rest).2, (hrun rest').2, (hrun rest).1, (hrun rest').1]
    cases hempty : body.isEmpty with
    | true => exact .inl ⟨_, _, rfl, rfl⟩
    | false =>
      right
      refine ⟨_, _, _, rfl, .inr ⟨_, rfl, _, left, rfl, rfl, ?_⟩⟩
      rw [← hplace, List.length_append, Nat.add_assoc]

end Input.SameTo

namespace ParseTree

/-- The first reading goes beyond the place, or both fail, or both read the same and leave inputs
that are the same up to the sign. -/
inductive Alike (place : Nat) (c : Char) (rest rest' : List Char) {α : Type} :
    Except ReadError (α × Input) → Except ReadError (α × Input) → Prop
  | beyond {x x' : Except ReadError (α × Input)} (lt : place < ending x) :
      Alike place c rest rest' x x'
  | fail {e e' : ReadError} : Alike place c rest rest' (.error e) (.error e')
  | read {a : α} {r r' : Input} (same : r.SameTo place c rest rest' r') :
      Alike place c rest rest' (.ok (a, r)) (.ok (a, r'))

/-- The name at the front of the input with its column, and what is left. -/
def named (i : Input) : Except ReadError ((String × Nat) × Input) := do
  let (text, column, r) ← i.name
  pure ((text, column), r)

/-- A value that was read, after which a sign has to come. -/
def followed {α : Type} (sign : Char) (a : α) (i : Input) : Except ReadError (α × Input) := do
  let r ← i.expect sign
  pure (a, r)

/-- Goes on after a sign if the sign comes next, and stops otherwise. -/
def choose {α : Type} (sign : Char) (go stop : Input → Except ReadError (α × Input)) (i : Input) :
    Except ReadError (α × Input) :=
  match i.take? sign with
  | some r => go r
  | none => stop i

theorem readWithin_eq_bind (bound : Nat) (i : Input) :
    readWithin (bound + 1) i = named i >>= fun ((text, column), r) =>
      choose '('
        (fun r => do let (args, r) ← readArgsWithin bound r; pure (.name text args column, r))
        (fun r => pure (.name text [] column, r)) r := by
  rw [readWithin, named]
  cases i.name with
  | error e => rfl
  | ok result =>
    obtain ⟨text, column, r⟩ := result
    simp only [bind, Except.bind, pure, Except.pure, choose]
    cases r.take? '(' <;> rfl

theorem readArgsWithin_eq_bind (bound : Nat) (i : Input) :
    readArgsWithin (bound + 1) i = readWithin bound i >>= fun (first, r) =>
      choose ',' (fun r => do let (others, r) ← readArgsWithin bound r; pure (first :: others, r))
        (followed ')' [first]) r := by
  rw [readArgsWithin]
  cases readWithin bound i with
  | error e => rfl
  | ok result =>
    obtain ⟨first, r⟩ := result
    simp only [bind, Except.bind, choose]
    cases r.take? ',' <;> rfl

variable {α β : Type}

theorem le_ending_bind {n : Nat} {x : Except ReadError (α × Input)}
    {f : α × Input → Except ReadError (β × Input)} (le : n ≤ ending x)
    (next : ∀ a r, x = .ok (a, r) → r.column ≤ ending (f (a, r))) : n ≤ ending (x >>= f) := by
  cases x with
  | error e => exact le
  | ok result => exact Nat.le_trans le (next result.1 result.2 rfl)

theorem le_ending_map {n : Nat} {x : Except ReadError (α × Input)} (le : n ≤ ending x)
    (f : α → β) : n ≤ ending (do let (a, r) ← x; pure (f a, r)) :=
  le_ending_bind le fun _ _ _ => Nat.le_refl _

theorem le_ending_followed {sign : Char} (hsign : isBlank sign = false) (a : α) (i : Input) :
    i.column ≤ ending (followed sign a i) := by
  rw [followed]
  cases hexpect : i.expect sign with
  | error e =>
    obtain ⟨gap, -, -, hcolumn, -⟩ := Input.skipBlanks_eq_iff.1 (@rfl _ i.skipBlanks)
    show i.column ≤ e.column
    rw [(of_expect_error hexpect).2]
    omega
  | ok r =>
    obtain ⟨gap, -, -, hcolumn⟩ :=
      (Input.take?_eq_some_iff hsign).1 (Input.expect_eq_ok_iff.1 hexpect)
    show i.column ≤ r.column
    omega

theorem le_ending_choose {sign : Char} {go stop : Input → Except ReadError (α × Input)} {i : Input}
    (hsign : isBlank sign = false)
    (hgo : ∀ r, i.take? sign = some r → r.column ≤ ending (go r))
    (hstop : i.column ≤ ending (stop i)) : i.column ≤ ending (choose sign go stop i) := by
  rw [choose]
  cases htake : i.take? sign with
  | none => exact hstop
  | some r =>
    obtain ⟨gap, -, -, hcolumn⟩ := (Input.take?_eq_some_iff hsign).1 htake
    have := hgo r htake
    dsimp only
    omega

namespace Alike

theorem bind {x x' : Except ReadError (α × Input)}
    {f : α × Input → Except ReadError (β × Input)} (alike : Alike place c rest rest' x x')
    (beyond : ∀ a r, x = .ok (a, r) → r.column ≤ ending (f (a, r)))
    (next : ∀ a r r', x = .ok (a, r) → r.SameTo place c rest rest' r' →
      Alike place c rest rest' (f (a, r)) (f (a, r'))) :
    Alike place c rest rest' (x >>= f) (x' >>= f) := by
  cases alike with
  | fail => exact .fail
  | @read a r r' same => exact next a r r' rfl same
  | beyond lt =>
    cases x with
    | error e => exact .beyond lt
    | ok result => exact .beyond (Nat.lt_of_lt_of_le lt (beyond result.1 result.2 rfl))

theorem map {x x' : Except ReadError (α × Input)} (alike : Alike place c rest rest' x x')
    (f : α → β) :
    Alike place c rest rest' (do let (a, r) ← x; pure (f a, r))
      (do let (a, r) ← x'; pure (f a, r)) := by
  apply alike.bind
  · intro a r _
    exact Nat.le_refl _
  · intro a r r' _ same
    exact .read same

theorem choose {sign : Char} {go stop : Input → Except ReadError (α × Input)} {i i' : Input}
    (same : i.SameTo place c rest rest' i') (visible : isBlank c = false)
    (beyond : ∀ r, i.take? sign = some r → r.column ≤ ending (go r))
    (next : ∀ r r', i.take? sign = some r → r.SameTo place c rest rest' r' →
      Alike place c rest rest' (go r) (go r'))
    (last : Alike place c rest rest' (stop i) (stop i')) :
    Alike place c rest rest' (ParseTree.choose sign go stop i)
      (ParseTree.choose sign go stop i') := by
  rw [ParseTree.choose, ParseTree.choose]
  rcases same.take? visible sign with ⟨hnone, hnone'⟩ | ⟨r, r', hsome, hsome', hr⟩
  · rw [hnone, hnone']
    exact last
  · rw [hsome, hsome']
    rcases hr with lt | same
    · exact .beyond (Nat.lt_of_lt_of_le lt (beyond r hsome))
    · exact next r r' hsome same

theorem named {i i' : Input} (same : i.SameTo place c rest rest' i') (visible : isBlank c = false) :
    Alike place c rest rest' (ParseTree.named i) (ParseTree.named i') := by
  rw [ParseTree.named, ParseTree.named]
  rcases same.name visible with ⟨e, e', hname, hname'⟩ | ⟨text, column, r, hname, hr⟩
  · rw [hname, hname']
    exact .fail
  · rw [hname]
    rcases hr with lt | ⟨r', hname', same⟩
    · exact .beyond lt
    · rw [hname']
      exact .read same

theorem followed {i i' : Input} (same : i.SameTo place c rest rest' i')
    (visible : isBlank c = false) (sign : Char) (a : α) :
    Alike place c rest rest' (ParseTree.followed sign a i) (ParseTree.followed sign a i') := by
  rw [ParseTree.followed, ParseTree.followed, Input.expect, Input.expect]
  rcases same.take? visible sign with ⟨hnone, hnone'⟩ | ⟨r, r', hsome, hsome', hr⟩
  · rw [hnone, hnone']
    exact .fail
  · rw [hsome, hsome']
    rcases hr with lt | same
    · exact .beyond lt
    · exact .read same

end Alike

/-- Arguments are read behind a sign, so for them a smaller bound is enough. -/
theorem chars_length_behind {sign : Char} (hsign : isBlank sign = false) {bound : Nat}
    {r inner : Input} (lt : r.chars.length < bound) (htake : r.take? sign = some inner) :
    inner.chars.length + 1 < bound := by
  have := Input.length_lt_of_take? hsign htake
  omega

section ReadingAlike

variable {bound : Nat} (visible : isBlank c = false)
  (ihArgs : ∀ {i i' : Input}, i.SameTo place c rest rest' i' → i.chars.length + 1 < bound →
    Alike place c rest rest' (readArgsWithin bound i) (readArgsWithin bound i'))

include visible ihArgs

theorem alike_readWithin_succ {i i' : Input} (same : i.SameTo place c rest rest' i')
    (lt : i.chars.length < bound + 1) :
    Alike place c rest rest' (readWithin (bound + 1) i) (readWithin (bound + 1) i') := by
  rw [readWithin_eq_bind, readWithin_eq_bind]
  have hrest {a : String × Nat} {r : Input} (hnamed : named i = .ok (a, r)) :
      r.chars.length < bound := by
    obtain ⟨⟨text, column, r'⟩, hname, ok⟩ := bind_eq_ok.1 hnamed
    obtain ⟨-, rfl⟩ := Prod.mk.inj (Except.ok.inj ok)
    have := Input.length_lt_of_name hname
    omega
  apply (Alike.named same visible).bind
  · rintro ⟨text, column⟩ r hnamed
    apply le_ending_choose (by decide)
    · intro inner htake
      have hlt := chars_length_behind (by decide) (hrest hnamed) htake
      exact le_ending_map (le_ending_readArgsWithin hlt) (name text · column)
    · exact Nat.le_refl _
  · rintro ⟨text, column⟩ r r' hnamed same
    apply Alike.choose same visible
    · intro inner htake
      have hlt := chars_length_behind (by decide) (hrest hnamed) htake
      exact le_ending_map (le_ending_readArgsWithin hlt) (name text · column)
    · intro inner inner' htake same
      have hlt := chars_length_behind (by decide) (hrest hnamed) htake
      exact (ihArgs same hlt).map (name text · column)
    · exact .read same

theorem alike_readArgsWithin_succ
    (ihTree : ∀ {i i' : Input}, i.SameTo place c rest rest' i' → i.chars.length < bound →
      Alike place c rest rest' (readWithin bound i) (readWithin bound i'))
    {i i' : Input} (same : i.SameTo place c rest rest' i')
    (lt : i.chars.length + 1 < bound + 1) :
    Alike place c rest rest' (readArgsWithin (bound + 1) i) (readArgsWithin (bound + 1) i') := by
  rw [readArgsWithin_eq_bind, readArgsWithin_eq_bind]
  have hrest {a : ParseTree} {r : Input} (hread : readWithin bound i = .ok (a, r)) :
      r.chars.length < bound := by
    have := (length_lt_of_readWithin _).1 hread
    omega
  apply (ihTree same (by omega)).bind
  · intro first r hread
    apply le_ending_choose (by decide)
    · intro inner htake
      have hlt := chars_length_behind (by decide) (hrest hread) htake
      exact le_ending_map (le_ending_readArgsWithin hlt) _
    · exact le_ending_followed (by decide) _ r
  · intro first r r' hread same
    apply Alike.choose same visible
    · intro inner htake
      have hlt := chars_length_behind (by decide) (hrest hread) htake
      exact le_ending_map (le_ending_readArgsWithin hlt) _
    · intro inner inner' htake same
      have hlt := chars_length_behind (by decide) (hrest hread) htake
      exact (ihArgs same hlt).map _
    · exact .followed same visible _ _

end ReadingAlike

/-- Inputs that are the same up to a sign are read alike. -/
theorem alike_readWithin (visible : isBlank c = false) (bound : Nat) :
    (∀ {i i' : Input}, i.SameTo place c rest rest' i' → i.chars.length < bound →
      Alike place c rest rest' (readWithin bound i) (readWithin bound i')) ∧
    ∀ {i i' : Input}, i.SameTo place c rest rest' i' → i.chars.length + 1 < bound →
      Alike place c rest rest' (readArgsWithin bound i) (readArgsWithin bound i') := by
  induction bound with
  | zero =>
    constructor
    · intro i i' _ _
      exact .fail
    · intro i i' _ _
      exact .fail
  | succ bound ih =>
    obtain ⟨ihTree, ihArgs⟩ := ih
    constructor
    · intro i i'
      exact alike_readWithin_succ visible ihArgs
    · intro i i'
      exact alike_readArgsWithin_succ visible ihArgs ihTree

theorem le_ending_read (i : Input) : i.column ≤ ending (read i) :=
  read_eq i ▸ le_ending_readWithin (Nat.lt_succ_self _)

theorem alike_read {i i' : Input} (same : i.SameTo place c rest rest' i')
    (visible : isBlank c = false) : Alike place c rest rest' (read i) (read i') := by
  let bound := i.chars.length + i'.chars.length + 1
  rw [← readWithin_eq_read (show i.chars.length < bound by omega),
    ← readWithin_eq_read (show i'.chars.length < bound by omega)]
  exact (alike_readWithin visible bound).1 same (by omega)

/-- Both sides of a line, and what is left after them. -/
def readSides (i : Input) : Except ReadError ((ParseTree × ParseTree) × Input) := do
  let (lhs, r) ← read i
  let (lhs, r) ← followed '=' lhs r
  let (rhs, r) ← read r
  pure ((lhs, rhs), r)

theorem readLine_eq_bind (line : List Char) :
    readLine line = readSides (.ofLine line) >>= fun ((lhs, rhs), r) =>
      match r.skipBlanks.next? with
      | some found => r.skipBlanks.fail (.unexpected found)
      | none => pure (.equality lhs rhs) := by
  rw [readLine, readSides]
  cases read (.ofLine line) with
  | error e => rfl
  | ok result =>
    obtain ⟨lhs, r⟩ := result
    simp only [bind, Except.bind, followed]
    cases r.expect '=' with
    | error e => rfl
    | ok r =>
      simp only [pure, Except.pure]
      cases read r with
      | error e => rfl
      | ok result => rfl

theorem alike_readSides {i i' : Input} (same : i.SameTo place c rest rest' i')
    (visible : isBlank c = false) : Alike place c rest rest' (readSides i) (readSides i') := by
  have hright (lhs : ParseTree) (r : Input) :
      r.column ≤ ending (do let (rhs, r) ← read r; pure ((lhs, rhs), r)) :=
    le_ending_map (le_ending_read r) (Prod.mk lhs)
  apply (alike_read same visible).bind
  · intro lhs r _
    exact le_ending_bind (le_ending_followed (by decide) lhs r) fun lhs r _ => hright lhs r
  · intro lhs r r' _ same
    apply (Alike.followed same visible '=' lhs).bind
    · intro lhs r _
      exact hright lhs r
    · intro lhs r r' _ same
      exact (alike_read same visible).map (Prod.mk lhs)

/-- A line that is refused because of a sign is refused whatever comes after the sign. -/
theorem readLine_fails_alike {before : List Char} {e : ReadError} (visible : isBlank c = false)
    (error : readLine (before ++ c :: rest) = .error e) (place : e.column = before.length)
    (rest' : List Char) : ∃ e', readLine (before ++ c :: rest') = .error e' := by
  have same : (Input.ofLine (before ++ c :: rest)).SameTo e.column c rest rest'
      (.ofLine (before ++ c :: rest')) :=
    ⟨0, before, rfl, rfl, by rw [place, Nat.zero_add]⟩
  have alike := alike_readSides same visible
  rw [readLine_eq_bind] at error ⊢
  generalize readSides (.ofLine (before ++ c :: rest)) = sides at alike error
  generalize readSides (.ofLine (before ++ c :: rest')) = sides' at alike
  cases alike with
  | fail => exact ⟨_, rfl⟩
  | beyond lt =>
    -- The error would come after the sign.
    rcases bind_eq_error.1 error with rfl | ⟨⟨⟨lhs, rhs⟩, r⟩, rfl, hlast⟩
    · exact absurd lt (Nat.lt_irrefl _)
    · obtain ⟨gap, -, -, hcolumn, -⟩ := Input.skipBlanks_eq_iff.1 (@rfl _ r.skipBlanks)
      have hlt : e.column < r.column := lt
      dsimp only at hlast
      split at hlast
      next found =>
        obtain rfl := Except.error.inj hlast
        dsimp only at hlt
        omega
      next => cases hlast
  | @read sides r r' same =>
    obtain ⟨column, left, -, hskip', -⟩ := same.skipBlanks visible
    simp only [bind, Except.bind, hskip', Input.next?, List.head?_append, List.head?_cons,
      Option.or_some]
    exact ⟨_, rfl⟩

end ParseTree

end Alike

namespace ParseTree

/-- **The place of an error.** If a line is refused, then the characters before the place that is
told begin some line that is accepted. Either the line ends there, or with the next character they
begin no line that is accepted. -/
theorem readLine_fails_exactly {line : List Char} {e : ReadError}
    (error : readLine line = .error e) :
    e.column ≤ line.length ∧
      (∃ accepted tree, readLine accepted = .ok tree ∧ line.take e.column <+: accepted) ∧
      (e.column = line.length ∨
        ∀ accepted tree, readLine accepted = .ok tree →
          ¬line.take (e.column + 1) <+: accepted) := by
  obtain ⟨-, before, after, hline, hcolumn, hhead, more, tree, accepted⟩ :=
    completes_of_readLine error
  rw [show (Input.ofLine line).chars = line from rfl] at hline
  rw [show (Input.ofLine line).column = 0 from rfl, Nat.zero_add] at hcolumn
  subst hline
  refine ⟨by simp [hcolumn], ⟨before ++ more, tree, readLine_eq_ok_iff.2 accepted, ?_⟩, ?_⟩
  · simp [hcolumn]
  · cases after with
    | nil => exact .inl (by simp [hcolumn])
    | cons c rest =>
      right
      rintro accepted tree ok ⟨rest', rfl⟩
      obtain ⟨e', error'⟩ := readLine_fails_alike (hhead c rfl) error hcolumn rest'
      have hfront : (before ++ c :: rest).take (e.column + 1) ++ rest' = before ++ c :: rest' := by
        rw [hcolumn, List.take_length_add_append]
        simp
      rw [hfront, error'] at ok
      cases ok

/-- After a comma and a blank an argument may come, but no sign of equality. -/
theorem readLine_fails_exactly_comma :
    ∃ e, readLine "f(x, = y".toList = .error e ∧ e.column = 5 ∧
      (∃ accepted tree, readLine accepted = .ok tree ∧ "f(x, ".toList <+: accepted) ∧
      ∀ accepted tree, readLine accepted = .ok tree → ¬"f(x, =".toList <+: accepted := by
  have verdict : (match readLine "f(x, = y".toList with
      | .error e => some e.column
      | .ok _ => none) = some 5 := by decide +kernel
  cases hread : readLine "f(x, = y".toList with
  | ok tree =>
    rw [hread] at verdict
    cases verdict
  | error e =>
    rw [hread] at verdict
    have hcolumn : e.column = 5 := Option.some.inj verdict
    obtain ⟨-, viable, hend | stuck⟩ := readLine_fails_exactly hread
    · rw [hcolumn] at hend
      cases hend
    · rw [hcolumn] at viable stuck
      exact ⟨e, rfl, hcolumn, viable, stuck⟩

end ParseTree

end Equational
