import Equational.Proofs.Loading
import Equational.Proofs.Locality

/-!
# Statements written and read back

An archive holds the records of a statement as they stand, and the reader takes only records in
order. So a statement comes back from its archive exactly if both its tables are in order
(`Statement.load_save_of_made`): always without edits, and always once it was laid out anew, but
not after every edit (`Statement.load_save_edited`).
-/

namespace Equational

variable {ctx : Context} {edits : Prop}

theorem TermGraph.IsOf.plain {g : TermGraph} (known : g.IsOf ctx.vocabulary) : g.IsOf .plain := by
  refine ⟨fun r hr => ?_, (Vocabulary.allows_iff_plain.1 known.root).1, known.bare⟩
  obtain ⟨hknown, hargs⟩ := known.records r hr
  exact ⟨hknown.1, fun node hnode => (Vocabulary.allows_iff_plain.1 (hargs node hnode)).1⟩

namespace Expression.Made

variable {e : Expression}

theorem assembled (made : e.Made ctx edits) : e.Assembled := by
  induction made with
  | free id => exact .free ctx id
  | constant ok => exact .constant ok
  | func _ ok ih => exact .func ih ok
  | ofFormula _ ok => exact .ofFormula ok
  | viewAt _ _ ok ih => exact .viewAt ih ok
  | freeToFree _ ok ih => exact .freeToFree ih ok
  | freeToConst _ ok ih => exact .freeToConst ih ok
  | shift _ ok ih => exact .shift ih ok
  | compact _ ok ih => exact .compact ih ok
  | mapFree _ _ _ ok ih each => exact .mapFree ih each ok
  | replace _ _ _ hp ok ih ihnew => exact .replace ih ihnew hp ok

theorem denotes (made : e.Made ctx edits) : e.Denotes e.term := made.assembled.isTree.stores_term

end Expression.Made

namespace Statement

variable {s s' : Statement}

/-- Every number in the archive of the statement fits into a word. -/
def FitsWords (s : Statement) : Prop := s.left.graph.FitsWords ∧ s.right.graph.FitsWords

instance : Decidable s.FitsWords := inferInstanceAs (Decidable (_ ∧ _))

/-- The records of both sides are in order. -/
def IsOrdered (s : Statement) : Prop := s.left.graph.IsOrdered ∧ s.right.graph.IsOrdered

/-- The statement with tables that nothing else has. -/
def alone (s : Statement) : Statement := ⟨s.ctx, .own s.left.graph, .own s.right.graph⟩

theorem load_save_iff (left : s.left.graph.IsOf s.ctx.vocabulary)
    (right : s.right.graph.IsOf s.ctx.vocabulary) (fits : s.FitsWords) :
    load s.ctx s.save = .ok s' ↔ s.IsOrdered ∧ s' = s.alone := by
  rw [load_eq_ok_iff, save]
  constructor
  · rintro ⟨l, r, rest, rest', hleft, hright, -, -, rfl⟩
    obtain ⟨hordered, hl⟩ := (TermGraph.load_save_iff left.plain fits.1 _ _).1 hleft
    obtain ⟨rfl, rfl⟩ := Prod.mk.inj hl
    rw [← List.append_nil (TermGraph.save _)] at hright
    obtain ⟨hordered', hr⟩ := (TermGraph.load_save_iff right.plain fits.2 _ _).1 hright
    obtain ⟨rfl, -⟩ := Prod.mk.inj hr
    exact ⟨⟨hordered, hordered'⟩, rfl⟩
  · rintro ⟨⟨hordered, hordered'⟩, rfl⟩
    refine ⟨_, _, _, [], (TermGraph.load_save_iff left.plain fits.1 _ _).2 ⟨hordered, rfl⟩, ?_,
      left, right, rfl⟩
    have hright := (TermGraph.load_save_iff right.plain fits.2 [] _).2 ⟨hordered', rfl⟩
    rwa [List.append_nil] at hright

theorem load_save_of_not_isOrdered (left : s.left.graph.IsOf s.ctx.vocabulary)
    (right : s.right.graph.IsOf s.ctx.vocabulary) (fits : s.FitsWords) (unordered : ¬s.IsOrdered) :
    ∃ k, load s.ctx s.save = .error (.malformed (.notPreceding k)) := by
  have hright := TermGraph.load_save_cases right.plain fits.2 []
  rw [List.append_nil] at hright
  rcases TermGraph.load_save_cases left.plain fits.1 s.right.graph.save with hl | ⟨k, hl⟩
  · rcases hright with hr | ⟨k, hr⟩
    · refine absurd ?_ unordered
      exact ⟨(TermGraph.isOf_of_load hl).2, (TermGraph.isOf_of_load hr).2⟩
    · refine ⟨k, ?_⟩
      rw [load, save, hl]
      show (TermGraph.load s.right.graph.save >>= _) = _
      rw [hr]
      rfl
  · refine ⟨k, ?_⟩
    rw [load, save, hl]
    rfl

theorem of_compact_ok {c : Statement} (ok : s.compact = .ok c) :
    c = ⟨s.ctx, s.lhs.compacted.stored, s.rhs.compacted.stored⟩ := by
  obtain ⟨lhs, hlhs, ok⟩ := bind_eq_ok.1 ok
  obtain ⟨rhs, hrhs, ok⟩ := bind_eq_ok.1 ok
  obtain ⟨_, -, ok⟩ := bind_eq_ok.1 ok
  obtain ⟨-, rfl⟩ := Expression.compact_eq_ok_iff.1 hlhs
  obtain ⟨-, rfl⟩ := Expression.compact_eq_ok_iff.1 hrhs
  rw [← Except.ok.inj ok, Expression.ctx_compacted]
  rfl

theorem exists_compact (left : s.lhs.IsPlain) (right : s.rhs.IsPlain) :
    ∃ c, s.compact = .ok c := by
  have hsame : s.lhs.compacted.ctx.same s.rhs.compacted.ctx = true := by
    rw [Expression.ctx_compacted, Expression.ctx_compacted]
    exact Kernel.same_self s.ctx
  exact ⟨_, bind_eq_ok.2 ⟨_, Expression.compact_eq_ok_iff.2 ⟨fun _ => left, rfl⟩,
    bind_eq_ok.2 ⟨_, Expression.compact_eq_ok_iff.2 ⟨fun _ => right, rfl⟩,
      bind_eq_ok.2 ⟨(), require_eq_ok.2 hsame, rfl⟩⟩⟩⟩

theorem equation_of_compact_ok {c : Statement} (ok : s.compact = .ok c) :
    c.equation = s.equation := by
  have hterm : ∀ e : Expression, e.compacted.stored.term = e.term := fun e =>
    (congrArg TermGraph.term e.graph_compacted).trans (TermGraph.term_compacted _)
  rw [of_compact_ok ok]
  exact congrArg₂ Equation.mk (hterm s.lhs) (hterm s.rhs)

/-- **Archives of statements.** Whatever its history, a statement passes the test of its context,
and its archive is read back exactly if its records are in order; what is read is then the same
statement, and otherwise the order is what is complained of. Without edits the records are in
order. Laying the statement out anew puts them in order, which can be done if the variables of each
side fit into one row. -/
theorem load_save_of_made (built : ctx.Built) (made : s.Made ctx edits) (fits : s.FitsWords) :
    s.equation.isTyped ctx.signature = true ∧
      (s.IsOrdered → ∃ s', load ctx s.save = .ok s' ∧ s'.identical s = true) ∧
      (¬s.IsOrdered → ∃ k, load ctx s.save = .error (.malformed (.notPreceding k))) ∧
      (¬edits → s.IsOrdered) ∧
      (s.equation.FitRows → ∃ c, s.compact = .ok c) ∧
      ∀ c, s.compact = .ok c → c.FitsWords →
        ∃ s', load ctx c.save = .ok s' ∧ s'.identical s = true := by
  obtain ⟨rfl, hsides⟩ := made.sides
  have left : s.left.graph.IsOf s.ctx.vocabulary := (hsides .lhs).isOf built
  have right : s.right.graph.IsOf s.ctx.vocabulary := (hsides .rhs).isOf built
  refine ⟨?_, ?_, load_save_of_not_isOrdered left right fits, ?_, ?_, ?_⟩
  · rw [Equation.isTyped, Bool.and_eq_true]
    exact ⟨left.covers_term.isTyped List.prefix_rfl, right.covers_term.isTyped List.prefix_rfl⟩
  · intro ordered
    exact ⟨s.alone, (load_save_iff left right fits).2 ⟨ordered, rfl⟩, beq_self_eq_true s.equation⟩
  · intro unedited
    exact ⟨(hsides .lhs).isOrdered built unedited, (hsides .rhs).isOrdered built unedited⟩
  · intro fit
    exact exists_compact ⟨⟨(hsides .lhs).denotes, fit.lhs⟩, left.plain.covers_term⟩
      ⟨⟨(hsides .rhs).denotes, fit.rhs⟩, right.plain.covers_term⟩
  · intro c ok fitsCompact
    obtain ⟨hctx, hcompact⟩ := (made.compact ok).sides
    have ordered : c.IsOrdered := by
      rw [of_compact_ok ok]
      constructor
      · show s.lhs.compacted.graph.IsOrdered
        rw [Expression.graph_compacted]
        exact left.isOrdered_compacted
      · show s.rhs.compacted.graph.IsOrdered
        rw [Expression.graph_compacted]
        exact right.isOrdered_compacted
    have hleft : c.left.graph.IsOf c.ctx.vocabulary := hctx ▸ (hcompact .lhs).isOf built
    have hright : c.right.graph.IsOf c.ctx.vocabulary := hctx ▸ (hcompact .rhs).isOf built
    refine ⟨c.alone, hctx ▸ (load_save_iff hleft hright fitsCompact).2 ⟨ordered, rfl⟩, ?_⟩
    rw [identical, beq_iff_eq]
    have alone : c.alone.equation = c.equation := rfl
    exact alone.trans (equation_of_compact_ok ok)

/-! ### An edited statement -/

/-- The axiom, made from `i(x) = x` by putting `i(x)` in the place of `x` on the left. -/
def edited : Statement :=
  ⟨.involution, .own ⟨.func 0, #[⟨0, [.func 1]⟩, ⟨0, [.free 0]⟩]⟩, .own ⟨.free 0, #[]⟩⟩

theorem made_edited : edited.Made .involution True := by
  have base : (ofEquation .involution ⟨.app 0 [.var 0], .var 0⟩).Made .involution True :=
    @Made.ofFormula _ _ (.equality (.func 0 [.free 0]) (.free 0)) _ (by decide) rfl
  have new : (Expression.ofTerm .involution (.app 0 [.var 0])).Made .involution True :=
    @Expression.Made.ofFormula _ _ (.func 0 [.free 0]) _ (by decide) rfl
  exact @Made.replace _ _ _ _ _ .lhs ⟨.free 0, some (0, 0)⟩ trivial base new (by decide)
    (by decide +kernel)

/-- The statement says what the axiom says, but its archive is refused until it is laid out
anew. -/
theorem load_save_of_made_edited :
    edited.identical .involution = true ∧
      (∃ k, load .involution edited.save = .error (.malformed (.notPreceding k))) ∧
      ∃ c, edited.compact = .ok c ∧
        ∃ s', load .involution c.save = .ok s' ∧ s'.identical edited = true := by
  obtain ⟨-, -, refused, -, compacts, reads⟩ :=
    load_save_of_made Context.built_involution made_edited (by decide)
  obtain ⟨c, ok⟩ := compacts (Equation.fitRows_of_isNarrow (by decide +kernel))
  have words : c.FitsWords := by
    rw [of_compact_ok ok]
    decide +kernel
  refine ⟨by decide +kernel, refused fun ordered => ?_, c, ok, reads c ok words⟩
  exact absurd (ordered.1 0 _ rfl 1 List.mem_cons_self) (by decide)

/-- **A statement that does not come back.** -/
theorem load_save_edited :
    ∃ s : Statement, s.Made .involution True ∧
      s.equation.isTyped Context.involution.signature = true ∧
      load .involution s.save = .error (.malformed (.notPreceding 0)) :=
  ⟨edited, made_edited, by decide, by decide +kernel⟩

end Statement

end Equational
