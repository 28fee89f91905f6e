import Equational.ParseTree.Reader
import Equational.Proofs.Context
import Equational.Proofs.Draws

/-!
# Reading expressions

An expression is read with a stack of the calls that are still open. What the stack stands for is
said by `ParseTree.readWithin`, which reads arguments by recursion: the two agree on every input,
whether or not it can be read (`ParseTree.read_eq`).
-/

namespace Equational

namespace Text

theorem takeWhile_and_drop_iff {p : Char → Bool} {l body rest : List Char} :
    l.takeWhile p = body ∧ l.drop (l.takeWhile p).length = rest ↔
      l = body ++ rest ∧ (∀ c ∈ body, p c = true) ∧ ∀ c ∈ rest.head?, p c = false := by
  constructor
  · rintro ⟨rfl, rfl⟩
    induction l with
    | nil => simp
    | cons c l ih =>
      by_cases hc : p c = true
      · obtain ⟨hsplit, hbody, hrest⟩ := ih
        rw [List.takeWhile_cons_of_pos hc, List.length_cons, List.drop_succ_cons, List.cons_append,
          ← hsplit]
        refine ⟨rfl, ?_, hrest⟩
        intro d hd
        rcases List.mem_cons.1 hd with rfl | hd
        · exact hc
        · exact hbody d hd
      · simp [List.takeWhile_cons_of_neg hc, hc]
  · rintro ⟨rfl, hbody, hrest⟩
    have htake : (body ++ rest).takeWhile p = body := by
      rw [List.takeWhile_append_of_pos hbody]
      cases rest with
      | nil => simp
      | cons c rest => simp [hrest c rfl]
    simp [htake]

def IsGap (cs : List Char) : Prop := ∀ c ∈ cs, isBlank c = true

instance {cs : List Char} : Decidable (IsGap cs) := List.decidableBAll _ cs

theorem isGap_nil : IsGap [] := by decide

theorem isGap_blank : IsGap [' '] := by decide

theorem isNameChar_eq_false {c : Char} (h : isBlank c = true) : isNameChar c = false := by
  cases hname : isNameChar c with
  | false => rfl
  | true => rw [isBlank_eq_false hname] at h; cases h

/-- The text does not go on with a character of a name. -/
def EndsName (cs : List Char) : Prop := ∀ c ∈ cs.head?, isNameChar c = false

theorem IsGap.endsName {gap : List Char} (hgap : IsGap gap) : EndsName gap := by
  intro c hc
  exact isNameChar_eq_false (hgap c (List.mem_of_mem_head? hc))

theorem IsGap.endsName_sign {gap rest : List Char} (hgap : IsGap gap) {sign : Char}
    (hsign : isNameChar sign = false) : EndsName (gap ++ sign :: rest) := by
  intro c hc
  cases gap with
  | nil =>
    obtain rfl := Option.some.inj hc
    exact hsign
  | cons blank gap =>
    obtain rfl := Option.some.inj hc
    exact isNameChar_eq_false (hgap _ List.mem_cons_self)

end Text

open Text

/-! ### Readers of signs and names -/

namespace Input

variable {i r : Input} {gap rest : List Char} {sign : Char}

theorem skipBlanks_eq_iff :
    i.skipBlanks = r ↔ ∃ gap, IsGap gap ∧ i.chars = gap ++ r.chars ∧
      r.column = i.column + gap.length ∧ ∀ c ∈ r.chars.head?, isBlank c = false := by
  constructor
  · rintro rfl
    obtain ⟨hsplit, hgap, hrest⟩ := takeWhile_and_drop_iff.1 ⟨rfl, rfl⟩
    exact ⟨_, hgap, hsplit, rfl, hrest⟩
  · rintro ⟨gap, hgap, hchars, hcolumn, hrest⟩
    obtain ⟨htake, hdrop⟩ := takeWhile_and_drop_iff.2 ⟨hchars, hgap, hrest⟩
    rw [skipBlanks, hdrop, htake, ← hcolumn]

/-- A sign is looked for behind the blanks only. -/
theorem take?_append (start : Nat) (hgap : IsGap gap) {c : Char} (hc : isBlank c = false) :
    take? sign ⟨start, gap ++ c :: rest⟩ =
      if c = sign then some ⟨start + gap.length + 1, rest⟩ else none := by
  have hskip : skipBlanks ⟨start, gap ++ c :: rest⟩ = ⟨start + gap.length, c :: rest⟩ :=
    skipBlanks_eq_iff.2 ⟨gap, hgap, rfl, rfl, by simpa using hc⟩
  simp [take?, hskip]

theorem take?_eq_some_iff (hsign : isBlank sign = false) :
    i.take? sign = some r ↔
      ∃ gap, IsGap gap ∧ i.chars = gap ++ sign :: r.chars ∧
        r.column = i.column + gap.length + 1 := by
  constructor
  · intro h
    rw [take?] at h
    split at h
    next column c rest hskip =>
      split at h
      next hc =>
        obtain rfl := Option.some.inj h
        obtain ⟨gap, hgap, hchars, hcolumn, -⟩ := skipBlanks_eq_iff.1 hskip
        exact ⟨gap, hgap, hc ▸ hchars, congrArg (· + 1) hcolumn⟩
      next => cases h
    next => cases h
  · rintro ⟨gap, hgap, hchars, hcolumn⟩
    rw [show i = ⟨i.column, gap ++ sign :: r.chars⟩ by rw [← hchars], take?_append _ hgap hsign,
      if_pos rfl, ← hcolumn]

theorem expect_eq_ok_iff : i.expect sign = .ok r ↔ i.take? sign = some r := by
  rw [expect]
  cases i.take? sign <;> simp [fail]

theorem name_eq_ok_iff {text : String} {column : Nat} :
    i.name = .ok (text, column, r) ↔
      IsName text ∧ EndsName r.chars ∧
        ∃ gap, IsGap gap ∧ i.chars = gap ++ text.toList ++ r.chars ∧
          column = i.column + gap.length ∧ r.column = column + text.toList.length := by
  constructor
  · intro h
    obtain ⟨gap, hgap, hchars, hcolumn, -⟩ := skipBlanks_eq_iff.1 (@rfl _ i.skipBlanks)
    obtain ⟨hsplit, hname, hrest⟩ := takeWhile_and_drop_iff.1
      ⟨@rfl _ (i.skipBlanks.chars.takeWhile isNameChar), rfl⟩
    rw [name] at h
    split at h
    next => cases h
    next hne =>
      simp only [Except.ok.injEq, Prod.mk.injEq] at h
      obtain ⟨rfl, rfl, rfl⟩ := h
      rw [IsName, String.toList_ofList]
      refine ⟨⟨by simpa using hne, hname⟩, hrest, gap, hgap, ?_, hcolumn, rfl⟩
      rw [List.append_assoc, ← hsplit]
      exact hchars
  · rintro ⟨⟨hne, hname⟩, hrest, gap, hgap, hchars, rfl, hcolumn⟩
    have hskip : i.skipBlanks = ⟨i.column + gap.length, text.toList ++ r.chars⟩ := by
      refine skipBlanks_eq_iff.2 ⟨gap, hgap, by rw [hchars, List.append_assoc], rfl, ?_⟩
      intro c hc
      rw [List.head?_append_of_ne_nil _ hne] at hc
      exact isBlank_eq_false (hname c (List.mem_of_mem_head? hc))
    obtain ⟨htake, hdrop⟩ := takeWhile_and_drop_iff.2 ⟨rfl, hname, hrest⟩
    cases r
    simp_all [name]

end Input

namespace Input

variable {i r : Input}

theorem length_lt_of_name {text : String} {column : Nat} (h : i.name = .ok (text, column, r)) :
    r.chars.length < i.chars.length := by
  obtain ⟨⟨hne, -⟩, -, gap, -, hchars, -, -⟩ := name_eq_ok_iff.1 h
  have hpos := List.length_pos_iff.2 hne
  rw [hchars, List.length_append, List.length_append]
  omega

theorem length_lt_of_take? {sign : Char} (hsign : isBlank sign = false)
    (h : i.take? sign = some r) : r.chars.length < i.chars.length := by
  obtain ⟨gap, -, hchars, -⟩ := (take?_eq_some_iff hsign).1 h
  rw [hchars, List.length_append, List.length_cons]
  omega

end Input

/-! ### Reading by recursion -/

namespace ParseTree

mutual
/-- Reads an expression. The bound has to exceed the number of characters left. -/
def readWithin : Nat → Input → Except ReadError (ParseTree × Input)
  | 0, i => i.fail (.expectedName i.next?)
  | bound + 1, i => do
    let (text, column, rest) ← i.name
    match rest.take? '(' with
    | none => pure (.name text [] column, rest)
    | some rest => do
      let (args, rest) ← readArgsWithin bound rest
      pure (.name text args column, rest)
/-- Reads expressions with commas between them, up to a closing parenthesis. -/
def readArgsWithin : Nat → Input → Except ReadError (List ParseTree × Input)
  | 0, i => i.fail (.expectedName i.next?)
  | bound + 1, i => do
    let (first, rest) ← readWithin bound i
    match rest.take? ',' with
    | none => do
      let rest ← rest.expect ')'
      pure ([first], rest)
    | some rest => do
      let (others, rest) ← readArgsWithin bound rest
      pure (first :: others, rest)
end

theorem length_lt_of_readWithin (bound : Nat) :
    (∀ {i r : Input} {tree : ParseTree}, readWithin bound i = .ok (tree, r) →
      r.chars.length < i.chars.length) ∧
    ∀ {i r : Input} {trees : List ParseTree}, readArgsWithin bound i = .ok (trees, r) →
      r.chars.length < i.chars.length := by
  induction bound with
  | zero =>
    constructor
    · intro i r tree ok
      cases ok
    · intro i r trees ok
      cases ok
  | succ bound ih =>
    obtain ⟨ihTree, ihArgs⟩ := ih
    constructor
    · intro i r tree ok
      rw [readWithin] at ok
      obtain ⟨⟨text, column, rest⟩, hname, ok⟩ := bind_eq_ok.1 ok
      have hrest := Input.length_lt_of_name hname
      dsimp only at ok
      split at ok
      next =>
        obtain ⟨-, rfl⟩ := Prod.mk.inj (Except.ok.inj ok)
        exact hrest
      next inner htake =>
        obtain ⟨⟨args, rest'⟩, hargs, ok⟩ := bind_eq_ok.1 ok
        obtain ⟨-, rfl⟩ := Prod.mk.inj (Except.ok.inj ok)
        have hinner := Input.length_lt_of_take? (by decide) htake
        exact Nat.lt_trans (ihArgs hargs) (Nat.lt_trans hinner hrest)
    · intro i r trees ok
      rw [readArgsWithin] at ok
      obtain ⟨⟨first, rest⟩, hfirst, ok⟩ := bind_eq_ok.1 ok
      have hrest := ihTree hfirst
      dsimp only at ok
      split at ok
      next =>
        obtain ⟨rest', hexpect, ok⟩ := bind_eq_ok.1 ok
        obtain ⟨-, rfl⟩ := Prod.mk.inj (Except.ok.inj ok)
        have hinner := Input.length_lt_of_take? (by decide) (Input.expect_eq_ok_iff.1 hexpect)
        exact Nat.lt_trans hinner hrest
      next inner htake =>
        obtain ⟨⟨others, rest'⟩, hothers, ok⟩ := bind_eq_ok.1 ok
        obtain ⟨-, rfl⟩ := Prod.mk.inj (Except.ok.inj ok)
        have hinner := Input.length_lt_of_take? (by decide) htake
        exact Nat.lt_trans (ihArgs hothers) (Nat.lt_trans hinner hrest)

theorem readWithin_congr (bound bound' : Nat) :
    (∀ i : Input, i.chars.length < bound → i.chars.length < bound' →
      readWithin bound i = readWithin bound' i) ∧
    ∀ i : Input, i.chars.length + 1 < bound → i.chars.length + 1 < bound' →
      readArgsWithin bound i = readArgsWithin bound' i := by
  induction bound generalizing bound' with
  | zero => exact ⟨fun i h => absurd h (Nat.not_lt_zero _), fun i h => absurd h (Nat.not_lt_zero _)⟩
  | succ bound ih =>
    cases bound' with
    | zero =>
      exact ⟨fun i _ h => absurd h (Nat.not_lt_zero _), fun i _ h => absurd h (Nat.not_lt_zero _)⟩
    | succ bound' =>
      obtain ⟨ihTree, ihArgs⟩ := ih bound'
      constructor
      · intro i h h'
        rw [readWithin, readWithin]
        refine bind_congr_ok fun ⟨text, column, rest⟩ hname => ?_
        have hrest := Input.length_lt_of_name hname
        dsimp only
        cases htake : rest.take? '(' with
        | none => rfl
        | some inner =>
          have hinner := Input.length_lt_of_take? (by decide) htake
          dsimp only
          rw [ihArgs inner (by omega) (by omega)]
      · intro i h h'
        rw [readArgsWithin, readArgsWithin, ihTree i (by omega) (by omega)]
        refine bind_congr_ok fun ⟨first, rest⟩ hfirst => ?_
        have hrest := (length_lt_of_readWithin _).1 hfirst
        dsimp only
        cases htake : rest.take? ',' with
        | none => rfl
        | some inner =>
          have hinner := Input.length_lt_of_take? (by decide) htake
          dsimp only
          rw [ihArgs inner (by omega) (by omega)]

/-! ### Reading with a stack -/

/-- Reads the arguments that come after one, if there are more. -/
def readMoreWithin (bound : Nat) (i : Input) : Except ReadError (List ParseTree × Input) :=
  match i.take? ',' with
  | some rest => readArgsWithin bound rest
  | none => do
    let rest ← i.expect ')'
    pure ([], rest)

variable {bound : Nat} {i : Input}

theorem readArgsWithin_eq (h : i.chars.length + 1 < bound) :
    readArgsWithin bound i = readWithin bound i >>= fun first =>
      readMoreWithin bound first.2 >>= fun others => pure (first.1 :: others.1, others.2) := by
  obtain ⟨bound, rfl⟩ : ∃ b, bound = b + 1 := ⟨bound - 1, by omega⟩
  rw [readArgsWithin, (readWithin_congr bound (bound + 1)).1 i (by omega) (by omega)]
  refine bind_congr_ok fun ⟨first, rest⟩ hfirst => ?_
  have hrest := (length_lt_of_readWithin _).1 hfirst
  dsimp only [readMoreWithin]
  cases htake : rest.take? ',' with
  | none =>
    dsimp only
    rw [bind_assoc]
    rfl
  | some inner =>
    have hinner := Input.length_lt_of_take? (by decide) htake
    dsimp only
    rw [(readWithin_congr bound (bound + 1)).2 inner (by omega) (by omega)]

/-- What is left to be done for open calls once a tree was read: it is the next argument of the
innermost call, whose other arguments are still to be read. -/
def finish (bound : Nat) (tree : ParseTree) : List OpenCall → Input →
    Except ReadError (ParseTree × Input)
  | [], i => pure (tree, i)
  | call :: calls, i => do
    let (others, rest) ← readMoreWithin bound i
    finish bound (.name call.text (call.args ++ tree :: others) call.column) calls rest

/-- Closing calls up to a comma is a part of what is left to be done. -/
theorem finish_of_close {calls : List OpenCall} {tree : ParseTree}
    (h : i.chars.length + 1 < bound) :
    (∀ {closed r}, close tree calls i = .ok (.inl closed, r) →
      finish bound tree calls i = .ok (closed, r)) ∧
    (∀ {calls' r}, close tree calls i = .ok (.inr calls', r) → r.chars.length < i.chars.length ∧
      finish bound tree calls i =
        readWithin bound r >>= fun first => finish bound first.1 calls' first.2) ∧
    ∀ {e}, close tree calls i = .error e → finish bound tree calls i = .error e := by
  induction calls generalizing tree i with
  | nil =>
    refine ⟨fun ok => ?_, fun ok => ?_, fun ok => ?_⟩
    · cases ok
      rfl
    · cases ok
    · cases ok
  | cons call calls ih =>
    rw [close, finish, readMoreWithin]
    cases htake : i.take? ',' with
    | some rest =>
      have hrest := Input.length_lt_of_take? (by decide) htake
      refine ⟨fun ok => ?_, fun ok => ?_, fun ok => ?_⟩
      · cases ok
      · cases ok
        refine ⟨hrest, ?_⟩
        dsimp only
        rw [readArgsWithin_eq (by omega), bind_assoc]
        refine bind_congr_ok fun first _ => ?_
        simp only [bind_assoc, pure_bind, finish, List.append_assoc, List.singleton_append]
      · cases ok
    | none =>
      dsimp only
      cases hexpect : i.expect ')' with
      | error e =>
        refine ⟨fun ok => ?_, fun ok => ?_, fun ok => ?_⟩
        · cases ok
        · cases ok
        · cases ok
          rfl
      | ok rest =>
        have hrest := Input.length_lt_of_take? (by decide) (Input.expect_eq_ok_iff.1 hexpect)
        obtain ⟨hclosed, hopen, herror⟩ := @ih rest
          (.name call.text (call.args ++ [tree]) call.column) (by omega)
        refine ⟨fun ok => hclosed ok, fun ok => ?_, fun ok => herror ok⟩
        obtain ⟨hlt, heq⟩ := hopen ok
        exact ⟨Nat.lt_trans hlt hrest, heq⟩

/-- **The stack is the recursion.** To read on within open calls is to read an expression and to do
what is left to be done for the calls. -/
theorem readOn_eq {calls : List OpenCall} {within : Nat} (h : i.chars.length < bound)
    (h' : i.chars.length + 1 < within) :
    readOn bound calls i =
      readWithin within i >>= fun read => finish within read.1 calls read.2 := by
  induction bound generalizing calls i with
  | zero => exact absurd h (Nat.not_lt_zero _)
  | succ bound ih =>
    obtain ⟨within, rfl⟩ : ∃ w, within = w + 1 := ⟨within - 1, by omega⟩
    rw [readOn, readWithin, bind_assoc]
    refine bind_congr_ok fun ⟨text, column, rest⟩ hname => ?_
    have hrest := Input.length_lt_of_name hname
    dsimp only
    cases htake : rest.take? '(' with
    | some inner =>
      have hinner := Input.length_lt_of_take? (by decide) htake
      dsimp only
      rw [ih (by omega) (by omega),
        (readWithin_congr within (within + 1)).2 inner (by omega) (by omega),
        readArgsWithin_eq (by omega)]
      simp only [bind_assoc, pure_bind, finish, List.nil_append]
    | none =>
      obtain ⟨hclosed, hopen, herror⟩ := @finish_of_close (within + 1) rest calls
        (.name text [] column) (by omega)
      dsimp only
      rw [pure_bind]
      cases hclose : close (.name text [] column) calls rest with
      | error e => exact (herror hclose).symm
      | ok answer =>
        obtain ⟨tree | calls', r⟩ := answer
        · exact (hclosed hclose).symm
        · obtain ⟨hlt, heq⟩ := hopen hclose
          rw [heq]
          exact ih (by omega) (by omega)

theorem read_eq (i : Input) : read i = readWithin (i.chars.length + 1) i := by
  rw [read, readOn_eq (Nat.lt_succ_self _) (show _ < i.chars.length + 2 by omega),
    (readWithin_congr _ (i.chars.length + 1)).1 i (by omega) (by omega)]
  exact bind_pure _

theorem readWithin_eq_read (lt : i.chars.length < bound) : readWithin bound i = read i := by
  rw [read_eq]
  exact (readWithin_congr _ _).1 i lt (Nat.lt_succ_self _)

end ParseTree

end Equational
