import Equational.Proofs.Printing

/-!
# Lines of a source text

A text is cut into lines at its line feeds, and a statement stands on every line that is not
blank before its comment. Both are said here without a scan: `Text.Splits` relates a text to its
lines, and `Text.HoldsAt` says which line holds which statement text. The scan finds exactly
these, in the order of the lines (`ParseTree.lists_statementLines`).
-/

namespace Equational

namespace Text

/-! ### Lines -/

/-- The text consists of the lines. A line feed ends a line, and a carriage return right before
it is no part of the line. What follows the last line feed is a line if it is not empty. -/
inductive Splits : List Char → List (List Char) → Prop
  | nil : Splits [] []
  | last {line : List Char} (whole : '\n' ∉ line) (nonempty : line ≠ []) : Splits line [line]
  | feed {line text : List Char} {lines : List (List Char)} (whole : '\n' ∉ line)
      (plain : line.getLast? ≠ some '\r') (others : Splits text lines) :
      Splits (line ++ '\n' :: text) (line :: lines)
  | returnFeed {line text : List Char} {lines : List (List Char)} (whole : '\n' ∉ line)
      (others : Splits text lines) : Splits (line ++ '\r' :: '\n' :: text) (line :: lines)

variable {line text : List Char}

theorem linesAfter_feed (done : List Char) (whole : '\n' ∉ line) :
    linesAfter done (line ++ '\n' :: text) = closeLine (line.reverse ++ done) :: lines text := by
  induction line generalizing done with
  | nil => rfl
  | cons c line ih =>
    have hc : c ≠ '\n' := fun heq => whole (heq ▸ List.mem_cons_self)
    rw [List.cons_append, linesAfter, ih _ fun hmem => whole (List.mem_cons_of_mem _ hmem)]
    · simp
    · exact hc

theorem closeLine_reverse (plain : line.getLast? ≠ some '\r') : closeLine line.reverse = line := by
  rw [← List.head?_reverse] at plain
  rw [closeLine]
  · exact List.reverse_reverse line
  · intro rest hrest
    exact plain (by rw [hrest]; rfl)

theorem lines_feed (whole : '\n' ∉ line) (plain : line.getLast? ≠ some '\r') :
    lines (line ++ '\n' :: text) = line :: lines text := by
  rw [lines, linesAfter_feed [] whole, List.append_nil, closeLine_reverse plain]

theorem lines_returnFeed (whole : '\n' ∉ line) :
    lines (line ++ '\r' :: '\n' :: text) = line :: lines text := by
  have whole' : '\n' ∉ line ++ ['\r'] := by simpa using whole
  rw [show line ++ '\r' :: '\n' :: text = line ++ ['\r'] ++ '\n' :: text by simp, lines,
    linesAfter_feed [] whole', List.append_nil, List.reverse_concat, closeLine,
    List.reverse_reverse]

theorem Splits.lines_eq {found : List (List Char)} (splits : Splits text found) :
    lines text = found := by
  induction splits with
  | nil => rfl
  | last whole nonempty => simp [lines, linesAfter_eq [] whole, nonempty]
  | feed whole plain _ ih => rw [lines_feed whole plain, ih]
  | returnFeed whole _ ih => rw [lines_returnFeed whole, ih]

theorem splits_lines (text : List Char) : Splits text (lines text) := by
  by_cases hfeed : '\n' ∈ text
  · obtain ⟨line, rest, rfl, whole⟩ := List.eq_append_cons_of_mem hfeed
    by_cases hreturn : line.getLast? = some '\r'
    · obtain ⟨line, rfl⟩ := List.getLast?_eq_some_iff.1 hreturn
      have whole' : '\n' ∉ line := fun h => whole (List.mem_append_left _ h)
      rw [List.append_assoc, List.singleton_append, lines_returnFeed whole']
      exact .returnFeed whole' (splits_lines rest)
    · rw [lines_feed whole hreturn]
      exact .feed whole hreturn (splits_lines rest)
  · by_cases hempty : text = []
    · subst hempty
      exact .nil
    · have hlines : lines text = [text] := (Splits.last hfeed hempty).lines_eq
      rw [hlines]
      exact .last hfeed hempty
termination_by text.length

/-! ### Statements on lines -/

theorem withoutComment_eq_iff {code : List Char} :
    withoutComment line = code ↔
      '#' ∉ code ∧ (line = code ∨ ∃ comment, line = code ++ '#' :: comment) := by
  constructor
  · rintro rfl
    obtain ⟨hsplit, hcode, hrest⟩ := takeWhile_and_drop_iff.1
      ⟨@rfl _ (line.takeWhile (· != '#')), rfl⟩
    refine ⟨fun hmem => by simpa using hcode _ hmem, ?_⟩
    generalize line.drop (line.takeWhile (· != '#')).length = rest at hsplit hrest
    cases rest with
    | nil => exact .inl (hsplit.trans (List.append_nil _))
    | cons c comment =>
      obtain rfl : c = '#' := by simpa using hrest c rfl
      exact .inr ⟨comment, hsplit⟩
  · rintro ⟨bare, hline⟩
    have hcode : ∀ c ∈ code, (c != '#') = true :=
      fun c hc => bne_iff_ne.2 fun heq => bare (heq ▸ hc)
    rcases hline with rfl | ⟨comment, rfl⟩
    · exact (takeWhile_and_drop_iff.2 ⟨(List.append_nil _).symm, hcode, by simp⟩).1
    · exact (takeWhile_and_drop_iff.2 ⟨rfl, hcode, by simp⟩).1

/-- The line with the given number, counted from zero, holds the given statement text: what
stands on the line before a `#`, and is not blank. -/
def HoldsAt (source : List Char) (number : Nat) (code : List Char) : Prop :=
  ∃ lines line, Splits source lines ∧ lines[number]? = some line ∧
    '#' ∉ code ∧ (line = code ∨ ∃ comment, line = code ++ '#' :: comment) ∧ ¬IsGap code

/-- The statement texts of a source with the numbers of their lines, first line first. -/
structure Lists (source : List Char) (found : List (Nat × List Char)) : Prop where
  ascending : found.Pairwise (·.1 < ·.1)
  mem_iff : ∀ number code, (number, code) ∈ found ↔ HoldsAt source number code

end Text

open Text

namespace ParseTree

theorem mem_statementLines_iff {source code : List Char} {number : Nat} :
    (number, code) ∈ statementLines source ↔ HoldsAt source number code := by
  have hblank : (!code.all isBlank) = true ↔ ¬IsGap code := by
    rw [Bool.not_eq_true', ← Bool.not_eq_true, List.all_eq_true]
    rfl
  rw [statementLines, statementsAmong, List.mem_filter, List.mem_map, hblank]
  constructor
  · rintro ⟨⟨⟨line, number'⟩, hline, heq⟩, visible⟩
    obtain ⟨rfl, rfl⟩ := Prod.mk.inj heq
    obtain ⟨bare, hcode⟩ := withoutComment_eq_iff.1 (@rfl _ (withoutComment line))
    exact ⟨_, line, splits_lines source, List.mem_zipIdx_iff_getElem?.1 hline, bare, hcode, visible⟩
  · rintro ⟨found, line, splits, hline, bare, hcode, visible⟩
    rw [← splits.lines_eq] at hline
    refine ⟨⟨(line, number), List.mem_zipIdx_iff_getElem?.2 hline, ?_⟩, visible⟩
    exact congrArg (Prod.mk number) (withoutComment_eq_iff.2 ⟨bare, hcode⟩)

theorem lists_statementLines (source : List Char) : Lists source (statementLines source) := by
  refine ⟨?_, fun number code => mem_statementLines_iff⟩
  have hnumbers : ((lines source).zipIdx.map Prod.snd).Pairwise (· < ·) := by
    rw [List.zipIdx_map_snd]
    exact List.pairwise_lt_range'
  apply List.Pairwise.filter
  apply List.pairwise_map.2
  exact List.pairwise_map.1 hnumbers

end ParseTree

end Equational
