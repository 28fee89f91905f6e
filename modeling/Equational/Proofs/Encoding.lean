import Equational.Proofs.Loading
import Equational.Proofs.Printing

/-!
# What a formula that passes the test is encoded to

Three checks are about the same thing: the test of formulas, the demands that storing a record
makes, and the test of a kernel. They agree on all formulas but those in which a symbol is applied
to nothing. The test counts arguments, so it lets a constant be applied to none; storing a record
for such an application is refused.

All other formulas that pass the test are encoded (`Formula.exists_term`), to terms that pass the
test of a kernel (`Formula.isTyped_term`) and have the text of the formula (`Formula.text_term`).
-/

namespace Equational

namespace Formula

variable {ctx : Context} {s : Signature} {f : Formula} {t : Term}

mutual
/-- No symbol is applied to nothing. -/
def isApplied : Formula → Bool
  | .equality lhs rhs => lhs.isApplied && rhs.isApplied
  | .free _ | .const _ => true
  | .func _ args => !args.isEmpty && areApplied args
def areApplied : List Formula → Bool
  | [] => true
  | f :: fs => f.isApplied && areApplied fs
end

theorem areApplied_iff {fs : List Formula} :
    areApplied fs = true ↔ ∀ f ∈ fs, f.isApplied = true := by
  induction fs with
  | nil => simp [areApplied]
  | cons f fs ih => simp [areApplied, ih]

theorem isApplied_func_iff {symbol : Nat} {args : List Formula} :
    (func symbol args).isApplied = true ↔ args ≠ [] ∧ ∀ f ∈ args, f.isApplied = true := by
  simp [isApplied, areApplied_iff]

/-! ### Terms -/

theorem exists_term (typed : f.isTyped s = true) (applied : f.isApplied = true) :
    ∃ t, f.term = .ok t := by
  induction f with
  | equality lhs rhs _ _ => cases typed
  | free id => exact ⟨.var id, rfl⟩
  | const symbol => exact ⟨.const symbol, rfl⟩
  | func symbol args ih =>
    obtain ⟨-, htyped⟩ := isTyped_func_iff.1 typed
    obtain ⟨hsome, happlied⟩ := isApplied_func_iff.1 applied
    obtain ⟨ts, hts⟩ := exists_mapM_eq_ok fun f hf => ih f hf (htyped f hf) (happlied f hf)
    have hts := mapM_eq_ok_iff.1 hts
    refine ⟨.app symbol ts, term_func_eq_ok_iff.2 ⟨ts, hts, ?_, rfl⟩⟩
    intro hnil
    rw [hnil, List.forall₂_nil_right_iff] at hts
    exact hsome hts

theorem terms_eq_error {fs : List Formula} (typed : ∀ f ∈ fs, f.isTyped s = true)
    (bare : areApplied fs = false)
    (each : ∀ f ∈ fs, f.isApplied = false → f.term = .error .recordWithoutArguments) :
    terms fs = .error .recordWithoutArguments := by
  induction fs with
  | nil => cases bare
  | cons f fs ih =>
    rw [terms]
    cases happlied : f.isApplied with
    | false =>
      rw [each f List.mem_cons_self happlied]
      rfl
    | true =>
      obtain ⟨t, ht⟩ := exists_term (typed f List.mem_cons_self) happlied
      rw [areApplied, happlied, Bool.true_and] at bare
      rw [ht, ih (fun f' hf' => typed f' (List.mem_cons_of_mem f hf')) bare
        fun f' hf' => each f' (List.mem_cons_of_mem f hf')]
      rfl

/-- The one thing that can be wrong with a formula that passes the test. -/
theorem term_eq_error (typed : f.isTyped s = true) (bare : f.isApplied = false) :
    f.term = .error .recordWithoutArguments := by
  induction f with
  | equality lhs rhs _ _ => cases typed
  | free id => cases bare
  | const symbol => cases bare
  | func symbol args ih =>
    obtain ⟨-, htyped⟩ := isTyped_func_iff.1 typed
    cases args with
    | nil => rfl
    | cons f fs =>
      have hterms : terms (f :: fs) = .error .recordWithoutArguments :=
        terms_eq_error htyped (by simpa [isApplied] using bare)
          fun f' hf' hbare => ih f' hf' (htyped f' hf') hbare
      rw [term, hterms]
      rfl

/-! ### Texts -/

theorem text_term (ok : f.term = .ok t) : f.text ctx = t.text ctx := by
  induction f generalizing t with
  | equality lhs rhs _ _ =>
    obtain ⟨_, -, ok⟩ := bind_eq_ok.1 ok
    obtain ⟨_, -, ok⟩ := bind_eq_ok.1 ok
    cases ok
  | free id =>
    obtain rfl := Except.ok.inj ok
    rfl
  | const symbol =>
    obtain rfl := Except.ok.inj ok
    rfl
  | func symbol args ih =>
    obtain ⟨ts, hts, -, rfl⟩ := term_func_eq_ok_iff.1 ok
    have hargs : textArgs ctx args = Term.textArgs ctx ts := by
      clear ok
      induction hts with
      | nil => rfl
      | @cons f t fs ts hterm _ ihargs =>
        rw [textArgs, Term.textArgs, ih f List.mem_cons_self hterm,
          ihargs fun f' hf' => ih f' (List.mem_cons_of_mem f hf')]
    rw [text, Term.text, hargs]

/-! ### Expressions and statements -/

/-- What encoding the formula comes to: something good if no symbol is applied to nothing, and
otherwise the refusal to store a record without arguments. -/
def Encodes {α : Type} (f : Formula) (outcome : Checked α) (good : α → Prop) : Prop :=
  if f.isApplied then ∃ a, outcome = .ok a ∧ good a else outcome = .error .recordWithoutArguments

theorem encodes_expression (typed : f.isTyped ctx.signature = true) :
    f.Encodes (Expression.ofFormula ctx f) fun e =>
      e.ctx = ctx ∧ e.Denotes e.term ∧ e.term.isTyped ctx.signature = true ∧
        ∃ text, f.text ctx = .ok text ∧ e.term.text ctx = .ok text := by
  rw [Encodes, Expression.ofFormula]
  split
  next happlied =>
    obtain ⟨t, ht⟩ := exists_term typed happlied
    have htyped := isTyped_term typed ht
    obtain ⟨text, htext⟩ := Term.exists_text htyped
    have hterm : (Expression.ofTerm ctx t).term = t := TermGraph.term_ofTerm t
    refine ⟨.ofTerm ctx t, bind_eq_ok.2 ⟨t, ht, rfl⟩, rfl, ?_⟩
    rw [hterm, text_term ht]
    exact ⟨TermGraph.stores_ofTerm t, htyped, text, htext, htext⟩
  next hbare =>
    rw [term_eq_error typed (by simpa using hbare)]
    rfl

theorem encodes_statement {lhs rhs : Formula} (left : lhs.isTyped ctx.signature = true)
    (right : rhs.isTyped ctx.signature = true) :
    (equality lhs rhs).Encodes (Statement.ofFormula ctx (.equality lhs rhs)) fun s =>
      s.ctx = ctx ∧ s.Denotes s.equation ∧ s.equation.isTyped ctx.signature = true ∧
        ∃ text, (equality lhs rhs).text ctx = .ok text ∧ s.equation.text ctx = .ok text := by
  rw [Encodes, Statement.ofFormula, equation]
  split
  next happlied =>
    obtain ⟨hleft, hright⟩ := Bool.and_eq_true_iff.1 happlied
    obtain ⟨l, hl⟩ := exists_term left hleft
    obtain ⟨r, hr⟩ := exists_term right hright
    have htyped : (Equation.mk l r).isTyped ctx.signature = true :=
      Bool.and_eq_true_iff.2 ⟨isTyped_term left hl, isTyped_term right hr⟩
    obtain ⟨text, htext⟩ := Equation.exists_text_of_isTyped htyped
    refine ⟨.ofEquation ctx ⟨l, r⟩, ?_, rfl, ?_⟩
    · rw [hl, hr]
      rfl
    · rw [Statement.equation_ofEquation, Formula.text, text_term hl, text_term hr]
      exact ⟨Statement.denotes_ofEquation ctx ⟨l, r⟩, htyped, text, htext, htext⟩
  next hbare =>
    -- The sides are encoded from left to right, and the first one that is refused decides.
    cases hleft : lhs.isApplied with
    | false =>
      rw [term_eq_error left hleft]
      rfl
    | true =>
      obtain ⟨l, hl⟩ := exists_term left hleft
      have hright : rhs.isApplied = false := by simpa [isApplied, hleft] using hbare
      rw [hl, term_eq_error right hright]
      rfl

theorem Encodes.imp {α : Type} {outcome : Checked α} {good better : α → Prop}
    (h : f.Encodes outcome good) (implies : ∀ a, good a → better a) : f.Encodes outcome better := by
  rw [Encodes] at h ⊢
  split
  next happlied =>
    rw [if_pos happlied] at h
    obtain ⟨a, hok, hgood⟩ := h
    exact ⟨a, hok, implies a hgood⟩
  next hbare => rwa [if_neg hbare] at h

/-- **The test and the encoder.** A formula that passes the test is encoded, to a statement if it is
an equality and to an expression if it is not, unless a symbol is applied to nothing in it. If the
variables of each side fit into one row then what it is encoded to passes the test of every kernel
of the context and has a text, which is the text of the formula; and otherwise it can neither be
tested nor printed. An application to nothing is refused, though it passed the test. -/
theorem encoding_of_typeChecks (typed : f.typeChecks ctx.signature = true) :
    (f.isEquality = true → f.Encodes (Statement.ofFormula ctx f) fun s =>
      (∀ k : Kernel, k.ctx = ctx → (k.isValid [s] = .ok true ↔ s.equation.FitRows)) ∧
        ∃ text, f.text ctx = .ok text ∧ (s.text = .ok text ↔ s.equation.FitRows)) ∧
    (f.isEquality = false → f.Encodes (Expression.ofFormula ctx f) fun e =>
      (∀ k : Kernel, k.ctx = ctx → ∃ s, Statement.ofSides e e = .ok s ∧
        (k.isValid [s] = .ok true ↔ DenseSet.FitRow e.term.vars)) ∧
        ∃ text, f.text ctx = .ok text ∧ (e.text = .ok text ↔ DenseSet.FitRow e.term.vars)) := by
  constructor
  · intro hequality
    cases f with
    | free | const | func => cases hequality
    | equality lhs rhs =>
      obtain ⟨hleft, hright⟩ := Bool.and_eq_true_iff.1 typed
      apply (encodes_statement hleft hright).imp
      rintro s ⟨rfl, denotes, htyped, text, hformula, htext⟩
      refine ⟨?_, text, hformula, ?_⟩
      · intro k hk
        rw [Statement.isValid_singleton, hk, denotes.isTyped_eq_ok_iff]
        exact and_iff_left htyped
      · rw [denotes.text_eq_ok_iff]
        exact and_iff_left htext
  · intro hterm
    have htyped : f.isTyped ctx.signature = true := by
      cases f with
      | equality => cases hterm
      | free | const | func => exact typed
    apply (encodes_expression htyped).imp
    rintro e ⟨rfl, denotes, htyped, text, hformula, htext⟩
    refine ⟨?_, text, hformula, ?_⟩
    · intro k hk
      have both : Statement.Denotes ⟨e.ctx, e.stored, e.stored⟩ ⟨e.term, e.term⟩ :=
        ⟨denotes, denotes⟩
      have hequation : (Equation.mk e.term e.term).isTyped e.ctx.signature = true :=
        Bool.and_eq_true_iff.2 ⟨htyped, htyped⟩
      refine ⟨_, bind_eq_ok.2 ⟨(), require_eq_ok.2 (Kernel.same_self e.ctx), rfl⟩, ?_⟩
      rw [Statement.isValid_singleton, hk, both.isTyped_eq_ok_iff, and_iff_left hequation]
      exact ⟨Equation.FitRows.lhs, fun fit => ⟨fit, fit⟩⟩
    · rw [Expression.text, TermGraph.text_eq_ok_iff denotes]
      exact and_iff_left htext

end Formula

/-- A constant and a function symbol. -/
def Context.unital : Context :=
  { name := "unital", signature := ⟨[⟨"e", 0⟩, ⟨"i", 1⟩]⟩, label := 0 }

namespace Formula

theorem encoding_of_typeChecks_unital :
    ∃ s, Statement.ofFormula .unital (.equality (.func 1 [.const 0]) (.free 3)) = .ok s ∧
      s.text = .ok "i(e) = x3" := by
  have htyped : (equality (.func 1 [.const 0]) (.free 3)).typeChecks Context.unital.signature =
      true := rfl
  obtain ⟨s, hs, -, text, htext, hstext⟩ := (encoding_of_typeChecks htyped).1 rfl
  have hprinted : (equality (.func 1 [.const 0]) (.free 3)).text .unital = .ok "i(e) = x3" := rfl
  have fit : s.equation.FitRows := by
    obtain rfl := Except.ok.inj hs
    exact Equation.fitRows_of_isNarrow (by decide +kernel)
  exact ⟨s, hs, (hstext.2 fit).trans (htext.symm.trans hprinted)⟩

/-- A constant that is applied to nothing passes the test and has a text, but is not encoded,
neither alone nor in an equality. -/
theorem bare_constant_refused :
    (func 0 []).typeChecks Context.unital.signature = true ∧
      (func 0 []).text .unital = .ok "e()" ∧
      Expression.ofFormula .unital (.func 0 []) = .error .recordWithoutArguments ∧
      (equality (.func 0 []) (.free 0)).typeChecks Context.unital.signature = true ∧
      (equality (.func 0 []) (.free 0)).text .unital = .ok "e() = x0" ∧
      Statement.ofFormula .unital (.equality (.func 0 []) (.free 0)) =
        .error .recordWithoutArguments :=
  ⟨rfl, rfl, rfl, rfl, rfl, rfl⟩

end Formula

end Equational
