import Equational.Proofs.Kernel
import Equational.Proofs.Resolving
import Equational.Proofs.Storage

/-!
# Terms of a context

The vocabulary of a context is made of its constants and of its function symbols with as many
arguments as they are declared with. A term of this vocabulary passes the test of every kernel
of the context or of a larger one, and it can be printed. The other way round, a term that
passes the test is of the vocabulary if its applications have arguments. Names that are
resolved, and formulas that pass their test, give terms of the vocabulary only.
-/

namespace Equational

/-- The symbols of the context, with the numbers of arguments they take. -/
def Context.vocabulary (ctx : Context) : Vocabulary where
  const symbol := ctx.signature.declares symbol 0 = true
  app symbol arity := 0 < arity ∧ arity ≤ ctx.maxArity ∧ ctx.signature.declares symbol arity = true

variable {ctx : Context} {s : Signature} {t : Term}

/-! ### The test -/

namespace Term

theorem areTyped_iff {ts : List Term} : areTyped s ts = true ↔ ∀ t ∈ ts, t.isTyped s = true := by
  induction ts with
  | nil => simp [areTyped]
  | cons t ts ih => simp [areTyped, ih]

theorem isTyped_app_iff {symbol : Nat} {args : List Term} :
    (app symbol args).isTyped s = true ↔
      s.declares symbol args.length = true ∧ ∀ t ∈ args, t.isTyped s = true := by
  rw [isTyped, Bool.and_eq_true, areTyped_iff]

end Term

theorem Signature.declares_of_prefix {small : Signature} (grown : small.symbols <+: s.symbols)
    {id arity : Nat} (declared : small.declares id arity = true) : s.declares id arity = true := by
  obtain ⟨symbol, hget, harity⟩ := declares_iff.1 declared
  obtain ⟨more, hmore⟩ := grown
  have hlt := (List.getElem?_eq_some_iff.1 hget).1
  refine declares_iff.2 ⟨symbol, ?_, harity⟩
  rw [get?, ← hmore, List.getElem?_append_left hlt]
  exact hget

theorem Term.isTyped_of_prefix {small : Signature} (grown : small.symbols <+: s.symbols)
    (typed : t.isTyped small = true) : t.isTyped s = true := by
  induction t with
  | var id => rfl
  | const symbol => exact Signature.declares_of_prefix grown typed
  | app symbol args ih =>
    obtain ⟨hsymbol, hargs⟩ := isTyped_app_iff.1 typed
    refine isTyped_app_iff.2 ⟨Signature.declares_of_prefix grown hsymbol, ?_⟩
    exact fun t ht => ih t ht (hargs t ht)

theorem Statement.isTyped_of_prefix {st : Statement} {small : Signature}
    (grown : small.symbols <+: s.symbols) (typed : st.isTyped small = .ok true) :
    st.isTyped s = .ok true := by
  have denotes := Statement.denotes_of_isTyped typed
  obtain ⟨fit, typed⟩ := denotes.isTyped_eq_ok_iff.1 typed
  have sides := Bool.and_eq_true_iff.1 typed
  refine denotes.isTyped_eq_ok_iff.2 ⟨fit, Bool.and_eq_true_iff.2 ⟨?_, ?_⟩⟩
  · exact Term.isTyped_of_prefix grown sides.1
  · exact Term.isTyped_of_prefix grown sides.2

theorem Vocabulary.Covers.isTyped (covered : ctx.vocabulary.Covers t)
    (grown : ctx.signature.symbols <+: s.symbols) : t.isTyped s = true := by
  induction covered with
  | var id => rfl
  | const known => exact Signature.declares_of_prefix grown known
  | app known _ ih =>
    exact Term.isTyped_app_iff.2 ⟨Signature.declares_of_prefix grown known.2.2, ih⟩

/-- A term that passes the test, and whose applications have arguments, is a term of the
context. -/
theorem Context.Built.covers (built : ctx.Built) {v : Vocabulary} (covered : v.Covers t)
    (args : ∀ symbol arity, v.app symbol arity → 0 < arity)
    (typed : t.isTyped ctx.signature = true) : ctx.vocabulary.Covers t := by
  induction covered with
  | var id => exact .var id
  | const _ => exact .const typed
  | app known _ ih =>
    obtain ⟨hsymbol, hargs⟩ := Term.isTyped_app_iff.1 typed
    exact .app ⟨args _ _ known, built.arity_le hsymbol, hsymbol⟩ fun t ht => ih t ht (hargs t ht)

/-! ### Printing -/

theorem Context.nameOf_eq_ok_iff {symbol : Nat} {name : String} :
    ctx.nameOf symbol = .ok name ↔
      ∃ entry, ctx.signature.get? symbol = some entry ∧ entry.name = name := by
  rw [nameOf, Signature.name?]
  cases ctx.signature.get? symbol <;> simp [Violation.unless]

theorem Term.textArgs_eq_ok_iff {ts : List Term} {texts : List String} :
    textArgs ctx ts = .ok texts ↔ List.Forall₂ (fun t text => t.text ctx = .ok text) ts texts := by
  have hmap : textArgs ctx ts = ts.mapM (text ctx) := by
    clear texts
    induction ts with
    | nil => rfl
    | cons t ts ih => rw [textArgs, List.mapM_cons, ih]
  rw [hmap, mapM_eq_ok_iff]

theorem Term.text_app_eq_ok_iff {symbol : Nat} {args : List Term} {text : String} :
    (app symbol args).text ctx = .ok text ↔
      ∃ texts entry, List.Forall₂ (fun t text => t.text ctx = .ok text) args texts ∧
        ctx.signature.get? symbol = some entry ∧ applicationText entry.name texts = text := by
  rw [Term.text, bind_eq_ok]
  constructor
  · rintro ⟨texts, htexts, h⟩
    obtain ⟨name, hname, h⟩ := bind_eq_ok.1 h
    obtain ⟨entry, hget, rfl⟩ := Context.nameOf_eq_ok_iff.1 hname
    exact ⟨texts, entry, textArgs_eq_ok_iff.1 htexts, hget, Except.ok.inj h⟩
  · rintro ⟨texts, entry, htexts, hget, rfl⟩
    refine ⟨texts, textArgs_eq_ok_iff.2 htexts, bind_eq_ok.2 ⟨entry.name, ?_, rfl⟩⟩
    exact Context.nameOf_eq_ok_iff.2 ⟨entry, hget, rfl⟩

theorem Term.exists_text (typed : t.isTyped ctx.signature = true) :
    ∃ text, t.text ctx = .ok text := by
  induction t with
  | var id => exact ⟨variableText id, rfl⟩
  | const symbol =>
    obtain ⟨entry, hget, -⟩ := Signature.declares_iff.1 typed
    exact ⟨entry.name, Context.nameOf_eq_ok_iff.2 ⟨entry, hget, rfl⟩⟩
  | app symbol args ih =>
    obtain ⟨hsymbol, hargs⟩ := isTyped_app_iff.1 typed
    obtain ⟨entry, hget, -⟩ := Signature.declares_iff.1 hsymbol
    obtain ⟨texts, htexts⟩ := exists_mapM_eq_ok fun t ht => ih t ht (hargs t ht)
    exact ⟨_, text_app_eq_ok_iff.2 ⟨texts, entry, mapM_eq_ok_iff.1 htexts, hget, rfl⟩⟩

theorem Equation.exists_text_of_isTyped {e : Equation} (typed : e.isTyped ctx.signature = true) :
    ∃ text, e.text ctx = .ok text := by
  rw [isTyped, Bool.and_eq_true] at typed
  obtain ⟨left, hleft⟩ := Term.exists_text typed.1
  obtain ⟨right, hright⟩ := Term.exists_text typed.2
  exact ⟨equalityText left right, bind_eq_ok.2 ⟨left, hleft, bind_eq_ok.2 ⟨right, hright, rfl⟩⟩⟩

theorem Vocabulary.Covers.exists_text (covered : ctx.vocabulary.Covers t) :
    ∃ text, t.text ctx = .ok text :=
  Term.exists_text (covered.isTyped (List.prefix_refl _))

theorem Equation.exists_text {e : Equation} (lhs : ctx.vocabulary.Covers e.lhs)
    (rhs : ctx.vocabulary.Covers e.rhs) : ∃ text, e.text ctx = .ok text :=
  exists_text_of_isTyped (Bool.and_eq_true_iff.2
    ⟨lhs.isTyped (List.prefix_refl _), rhs.isTyped (List.prefix_refl _)⟩)

/-! ### Formulas -/

namespace Formula

theorem areTyped_iff {fs : List Formula} : areTyped s fs = true ↔ ∀ f ∈ fs, f.isTyped s = true := by
  induction fs with
  | nil => simp [areTyped]
  | cons f fs ih => simp [areTyped, ih]

theorem isTyped_func_iff {symbol : Nat} {args : List Formula} :
    (func symbol args).isTyped s = true ↔
      s.declares symbol args.length = true ∧ ∀ f ∈ args, f.isTyped s = true := by
  rw [isTyped, Bool.and_eq_true, areTyped_iff]

theorem terms_eq_ok_iff {fs : List Formula} {ts : List Term} :
    terms fs = .ok ts ↔ List.Forall₂ (fun f t => f.term = .ok t) fs ts := by
  have hmap : terms fs = fs.mapM term := by
    clear ts
    induction fs with
    | nil => rfl
    | cons f fs ih => rw [terms, List.mapM_cons, ih]
  rw [hmap, mapM_eq_ok_iff]

theorem term_func_eq_ok_iff {symbol : Nat} {args : List Formula} {t : Term} :
    (func symbol args).term = .ok t ↔
      ∃ ts, List.Forall₂ (fun f t => f.term = .ok t) args ts ∧ ts ≠ [] ∧ .app symbol ts = t := by
  rw [term, bind_eq_ok]
  constructor
  · rintro ⟨ts, hts, h⟩
    obtain ⟨_, hne, h⟩ := bind_eq_ok.1 h
    refine ⟨ts, terms_eq_ok_iff.1 hts, ?_, Except.ok.inj h⟩
    simpa using require_eq_ok.1 hne
  · rintro ⟨ts, hts, hne, rfl⟩
    exact ⟨ts, terms_eq_ok_iff.2 hts, bind_eq_ok.2 ⟨(), require_eq_ok.2 (by simpa using hne), rfl⟩⟩

/-- To prove something of all formulas, prove it of each kind of node from its parts. -/
@[induction_eliminator]
theorem induction {motive : Formula → Prop}
    (equality : ∀ lhs rhs, motive lhs → motive rhs → motive (.equality lhs rhs))
    (free : ∀ id, motive (.free id)) (const : ∀ symbol, motive (.const symbol))
    (func : ∀ symbol args, (∀ f ∈ args, motive f) → motive (.func symbol args)) :
    ∀ f, motive f
  | .equality lhs rhs =>
    equality lhs rhs (induction equality free const func lhs)
      (induction equality free const func rhs)
  | .free id => free id
  | .const symbol => const symbol
  | .func symbol args => func symbol args fun f _ => induction equality free const func f

theorem isTyped_term {f : Formula} (typed : f.isTyped s = true) (ok : f.term = .ok t) :
    t.isTyped s = true := by
  induction f generalizing t with
  | equality lhs rhs _ _ => cases typed
  | free id =>
    obtain rfl := Except.ok.inj ok
    rfl
  | const symbol =>
    obtain rfl := Except.ok.inj ok
    exact typed
  | func symbol args ih =>
    obtain ⟨hsymbol, hargs⟩ := isTyped_func_iff.1 typed
    obtain ⟨ts, hts, -, rfl⟩ := term_func_eq_ok_iff.1 ok
    rw [hts.length_eq] at hsymbol
    refine Term.isTyped_app_iff.2 ⟨hsymbol, fun t ht => ?_⟩
    obtain ⟨f, hf, hterm⟩ := mem_of_mapM_ok (mapM_eq_ok_iff.2 hts) ht
    exact ih f hf (hargs f hf) hterm

theorem covers_term (built : ctx.Built) {f : Formula} (typed : f.isTyped ctx.signature = true)
    (ok : f.term = .ok t) : ctx.vocabulary.Covers t := by
  induction f generalizing t with
  | equality lhs rhs _ _ => cases typed
  | free id =>
    obtain rfl := Except.ok.inj ok
    exact .var id
  | const symbol =>
    obtain rfl := Except.ok.inj ok
    exact .const typed
  | func symbol args ih =>
    obtain ⟨hsymbol, hargs⟩ := isTyped_func_iff.1 typed
    obtain ⟨ts, hts, hne, rfl⟩ := term_func_eq_ok_iff.1 ok
    rw [hts.length_eq] at hsymbol
    refine .app ⟨List.length_pos_iff.2 hne, built.arity_le hsymbol, hsymbol⟩ ?_
    intro t ht
    obtain ⟨f, hf, hterm⟩ := mem_of_mapM_ok (mapM_eq_ok_iff.2 hts) ht
    exact ih f hf (hargs f hf) hterm

end Formula

/-! ### Names resolved -/

namespace ParseTree

variable {known known' : List String}

theorem isTyped_of_resolveArgs {trees : List ParseTree} {fs : List Formula}
    (each : ∀ tree ∈ trees, ∀ {known known' : List String} {f : Formula},
      tree.resolveTerm ctx known = .ok (f, known') → f.isTyped ctx.signature = true)
    (ok : resolveArgs ctx trees known = .ok (fs, known')) :
    ∀ f ∈ fs, f.isTyped ctx.signature = true := by
  induction trees generalizing known fs with
  | nil =>
    obtain ⟨rfl, rfl⟩ := Prod.mk.inj (Except.ok.inj ok)
    exact fun f hf => absurd hf List.not_mem_nil
  | cons tree trees ih =>
    rw [resolveArgs] at ok
    split at ok
    next first known₁ hfirst =>
      split at ok
      next rest known₂ hrest =>
        obtain ⟨rfl, rfl⟩ := Prod.mk.inj (Except.ok.inj ok)
        have htyped := ih (fun t ht => each t (List.mem_cons_of_mem _ ht)) hrest
        intro f hf
        rcases List.mem_cons.1 hf with rfl | hf
        · exact each tree List.mem_cons_self hfirst
        · exact htyped f hf
      next => cases ok
    next => cases ok

theorem isTyped_of_resolveTerm {tree : ParseTree} {f : Formula}
    (ok : tree.resolveTerm ctx known = .ok (f, known')) : f.isTyped ctx.signature = true := by
  induction tree generalizing known known' f with
  | equality lhs rhs _ _ => cases ok
  | name text args column ih =>
    rw [resolveTerm] at ok
    split at ok
    next =>
      split at ok
      next => cases ok
      next =>
        split at ok
        next =>
          obtain ⟨rfl, -⟩ := Prod.mk.inj (Except.ok.inj ok)
          rfl
        next =>
          obtain ⟨rfl, -⟩ := Prod.mk.inj (Except.ok.inj ok)
          rfl
    next symbol hfind =>
      obtain ⟨entry, hget⟩ := Signature.exists_get?_of_find? hfind
      have harity : (ctx.signature.arity? symbol).getD 0 = entry.arity := by
        rw [Signature.arity?, hget]
        rfl
      dsimp only at ok
      rw [harity] at ok
      split at ok
      next => cases ok
      next hcount =>
        split at ok
        next hzero =>
          obtain ⟨rfl, -⟩ := Prod.mk.inj (Except.ok.inj ok)
          exact Signature.declares_iff.2 ⟨entry, hget, hzero⟩
        next =>
          split at ok
          next fs known₁ hargs =>
            obtain ⟨rfl, -⟩ := Prod.mk.inj (Except.ok.inj ok)
            have htyped := isTyped_of_resolveArgs (fun t ht => ih t ht) hargs
            refine Formula.isTyped_func_iff.2 ⟨Signature.declares_iff.2 ⟨entry, hget, ?_⟩, htyped⟩
            rw [length_of_resolveArgs hargs]
            exact Decidable.not_not.1 hcount
          next => cases ok

end ParseTree

theorem Draft.written_involution (law : String) :
    Written { name := "involution", signature := ⟨[⟨"i", 1⟩]⟩, axioms := [law] } := by
  have hdefine : Draft.define { name := "involution" } "i" 1 =
      .ok { name := "involution", signature := ⟨[⟨"i", 1⟩]⟩ } := by decide +kernel
  exact ((Written.new "involution").define hdefine).addAxiom law

theorem Context.built_involution : Context.involution.Built :=
  ⟨_, 0, Draft.written_involution "i(i(x)) = x", rfl⟩

theorem Context.built_paired : Context.paired.Built := by
  have hfirst : Draft.define { name := "paired" } "f" 2 =
      .ok { name := "paired", signature := ⟨[⟨"f", 2⟩]⟩ } := by decide +kernel
  have hsecond : Draft.define { name := "paired", signature := ⟨[⟨"f", 2⟩]⟩ } "g" 1 =
      .ok { name := "paired", signature := ⟨[⟨"f", 2⟩, ⟨"g", 1⟩]⟩ } := by decide +kernel
  exact ⟨_, 0, ((Draft.Written.new "paired").define hfirst).define hsecond, rfl⟩

end Equational
