import Equational.Proofs.Layout
import Equational.Proofs.StoredMatching
import Equational.Proofs.Typing

/-!
# Statements read from archives

The bytes of an archive are anybody's. What is accepted is checked in two places: the reader of
graphs sees to it that every record has arguments and names earlier records only, and the reader
of statements compares every symbol with the context. Together they leave nothing for the users
of a statement to check but how far its variables are apart (`Statement.load_is_safe`).
-/

namespace Equational

variable {ctx : Context}

/-! ### The symbols of a graph -/

theorem forM_eq_ok_iff {α ε : Type} {f : α → Except ε Unit} {l : List α} {u : Unit} :
    l.forM f = .ok u ↔ ∀ a ∈ l, f a = .ok () := by
  induction l with
  | nil => exact ⟨fun _ => nofun, fun _ => rfl⟩
  | cons a l ih =>
    rw [show (a :: l).forM f = f a >>= fun _ => l.forM f from rfl, bind_eq_ok, List.forall_mem_cons,
      ← ih]
    exact ⟨fun ⟨_, hfirst, hrest⟩ => ⟨hfirst, hrest⟩, fun ⟨hfirst, hrest⟩ => ⟨(), hfirst, hrest⟩⟩

namespace Statement

/-- The test that is made of a node: it is a constant that the context does not have. -/
theorem not_unknownConst_iff {node : Node} :
    ¬(node.kind = .const && !ctx.signature.declares node.id 0) = true ↔
      ∀ symbol, node = .const symbol → ctx.vocabulary.const symbol := by
  cases node with
  | free id => simp [Node.kind]
  | func index => simp [Node.kind]
  | const symbol => simp [Node.kind, Node.id, Context.vocabulary]

theorem checkRecord_eq_ok_iff {index : Nat} {r : Record} {u : Unit} :
    checkRecord ctx index r = .ok u ↔
      r.arity ≤ ctx.maxArity ∧ ctx.signature.declares r.symbol r.arity = true ∧
        ∀ node ∈ r.args, ∀ symbol, node = .const symbol → ctx.vocabulary.const symbol := by
  have hfind : (r.args.find? fun node => node.kind = .const &&
        !ctx.signature.declares node.id 0) = none ↔
      ∀ node ∈ r.args, ∀ symbol, node = .const symbol → ctx.vocabulary.const symbol := by
    simp only [List.find?_eq_none, not_unknownConst_iff]
  rw [← hfind]
  by_cases hlimit : ctx.maxArity < r.arity
  · rw [checkRecord, if_pos hlimit]
    exact ⟨nofun, fun h => absurd h.1 (Nat.not_le_of_lt hlimit)⟩
  · rw [checkRecord, if_neg hlimit]
    cases hknown : ctx.signature.declares r.symbol r.arity with
    | false => exact ⟨nofun, nofun⟩
    | true =>
      dsimp only [pure_bind]
      rw [if_neg (by simp)]
      cases r.args.find? fun node => node.kind = .const && !ctx.signature.declares node.id 0 with
      | some node => exact ⟨nofun, nofun⟩
      | none => exact ⟨fun _ => ⟨Nat.le_of_not_lt hlimit, rfl, rfl⟩, fun _ => rfl⟩

theorem checkSymbols_eq_ok_iff {g : TermGraph} (formed : g.IsOf .plain) {u : Unit} :
    checkSymbols ctx g = .ok u ↔ g.IsOf ctx.vocabulary := by
  have records : (∀ a ∈ g.records.toList.zipIdx, checkRecord ctx a.2 a.1 = .ok ()) ↔
      g.RecordsIn ctx.vocabulary := by
    constructor
    · intro h r hr
      obtain ⟨hpos, hargs⟩ := formed.records r hr
      obtain ⟨index, found⟩ := Array.mem_iff_getElem?.1 hr
      have hmem : (r, index) ∈ g.records.toList.zipIdx := by
        rw [List.mem_zipIdx_iff_getElem?]
        simpa using found
      obtain ⟨hlimit, hknown, hconsts⟩ := checkRecord_eq_ok_iff.1 (h (r, index) hmem)
      exact ⟨⟨hpos, hlimit, hknown⟩, fun node hnode =>
        Vocabulary.allows_iff_plain.2 ⟨hargs node hnode, hconsts node hnode⟩⟩
    · rintro h ⟨r, index⟩ hmem
      have hr : r ∈ g.records := Array.mem_toList_iff.1 (List.fst_mem_of_mem_zipIdx hmem)
      obtain ⟨⟨-, hlimit, hknown⟩, hargs⟩ := h r hr
      exact checkRecord_eq_ok_iff.2 ⟨hlimit, hknown, fun node hnode =>
        (Vocabulary.allows_iff_plain.1 (hargs node hnode)).2⟩
  rw [checkSymbols]
  split
  next hunknown =>
    refine ⟨nofun, fun h => absurd hunknown ?_⟩
    exact not_unknownConst_iff.2 (Vocabulary.allows_iff_plain.1 h.root).2
  next hknown =>
    rw [forM_eq_ok_iff]
    have hroot := Vocabulary.allows_iff_plain.2 ⟨formed.root, not_unknownConst_iff.1 hknown⟩
    exact ⟨fun h => ⟨records.1 h, hroot, formed.bare⟩, fun h => records.2 h.records⟩

theorem load_eq_ok_iff {bytes : Archive.Bytes} {s : Statement} :
    load ctx bytes = .ok s ↔
      ∃ left right rest rest', TermGraph.load bytes = .ok (left, rest) ∧
        TermGraph.load rest = .ok (right, rest') ∧ left.IsOf ctx.vocabulary ∧
        right.IsOf ctx.vocabulary ∧ s = ⟨ctx, .own left, .own right⟩ := by
  rw [load]
  constructor
  · intro ok
    obtain ⟨⟨left, rest⟩, hleft, ok⟩ := bind_eq_ok.1 ok
    obtain ⟨⟨right, rest'⟩, hright, ok⟩ := bind_eq_ok.1 ok
    obtain ⟨_, hcheck, ok⟩ := bind_eq_ok.1 ok
    obtain ⟨_, hcheck', ok⟩ := bind_eq_ok.1 ok
    obtain ⟨formed, -⟩ := TermGraph.isOf_of_load hleft
    obtain ⟨formed', -⟩ := TermGraph.isOf_of_load hright
    exact ⟨left, right, rest, rest', hleft, hright, (checkSymbols_eq_ok_iff formed).1 hcheck,
      (checkSymbols_eq_ok_iff formed').1 hcheck', (Except.ok.inj ok).symm⟩
  · rintro ⟨left, right, rest, rest', hleft, hright, known, known', rfl⟩
    obtain ⟨formed, -⟩ := TermGraph.isOf_of_load hleft
    obtain ⟨formed', -⟩ := TermGraph.isOf_of_load hright
    exact bind_eq_ok.2 ⟨_, hleft, bind_eq_ok.2 ⟨_, hright,
      bind_eq_ok.2 ⟨(), (checkSymbols_eq_ok_iff formed).2 known,
        bind_eq_ok.2 ⟨(), (checkSymbols_eq_ok_iff formed').2 known', rfl⟩⟩⟩⟩

end Statement

/-! ### What users rely on -/

/-- The columns have one item for each argument of a record, and as many as its arity says. -/
def Archive.Columns.CountArgs (c : Archive.Columns) : Prop :=
  c.arities = c.ids.map List.length ∧ c.arities = c.kinds.map List.length ∧
    c.arities.length = c.symbols.length

theorem Archive.Columns.countArgs_ofGraph (g : TermGraph) : (Columns.ofGraph g).CountArgs := by
  simp [CountArgs, ofGraph, Record.arity, Function.comp_def]

namespace TermGraph

/-- What lets a graph be followed, printed and compared without a check. -/
structure IsSafe (g : TermGraph) (ctx : Context) : Prop where
  acyclic : WellFounded g.Refers
  root : g.holds g.root = true
  args : ∀ r ∈ g.records, ∀ node ∈ r.args, g.holds node = true
  stores : ∀ node, g.holds node = true → g.Stores node (g.termAt node)
  arity : ∀ r ∈ g.records, 0 < r.arity ∧ r.arity ≤ ctx.maxArity
  symbol : ∀ r ∈ g.records, ctx.signature.declares r.symbol r.arity = true
  const : ∀ symbol, (g.root = .const symbol ∨ ∃ r ∈ g.records, .const symbol ∈ r.args) →
    ctx.signature.declares symbol 0 = true

variable {g : TermGraph}

theorem IsOf.isSafe (known : g.IsOf ctx.vocabulary) (ordered : g.IsOrdered) : g.IsSafe ctx where
  acyclic := ordered.wellFounded
  root := holds_of_allows known.root
  args r hr node hnode := holds_of_allows ((known.records r hr).2 node hnode)
  stores _ held := ordered.stores_termAt known.records held
  arity r hr := ⟨(known.records r hr).1.1, (known.records r hr).1.2.1⟩
  symbol r hr := (known.records r hr).1.2.2
  const symbol := by
    rintro (hroot | ⟨r, hr, hsymbol⟩)
    · have hallowed := known.root
      rwa [hroot] at hallowed
    · exact (known.records r hr).2 _ hsymbol

end TermGraph

namespace Statement

theorem isValid_singleton (k : Kernel) (s : Statement) :
    k.isValid [s] = s.isTyped k.ctx.signature := by
  show (s.isTyped k.ctx.signature >>= _) = _
  cases s.isTyped k.ctx.signature with
  | error cause => rfl
  | ok typed =>
    cases typed with
    | true => rfl
    | false => rfl

/-- Kernels of the context, and of contexts that extend it, take a statement of its vocabulary, if
they can go through it. -/
theorem isValid_of_covers {s : Statement} (denotes : s.Denotes s.equation)
    (left : ctx.vocabulary.Covers s.equation.lhs) (right : ctx.vocabulary.Covers s.equation.rhs)
    {k : Kernel} (grown : k.ctx = ctx ∨ k.ctx.isExtensionOf ctx = true) :
    k.isValid [s] = .ok true ↔ s.equation.FitRows := by
  have starts : ctx.signature.symbols <+: k.ctx.signature.symbols := by
    rcases grown with rfl | grown
    · exact List.prefix_rfl
    · rw [Context.isExtensionOf, Bool.and_eq_true] at grown
      exact List.isPrefixOf_iff_prefix.1 grown.2
  have typed : s.equation.isTyped k.ctx.signature = true := by
    rw [Equation.isTyped, left.isTyped starts, right.isTyped starts]
    rfl
  rw [isValid_singleton, denotes.isTyped_eq_ok_iff]
  exact and_iff_left typed

/-- **Accepted archives are safe.** Whatever the bytes are, a statement that is read from them has
no circles, and names existing records and symbols of the context only, with the arities they are
declared with. It has a text and a height and is taken by every kernel of the context, if and only
if the variables of each side fit into one row. Each side can be compared with any expression
without circles by a walk through both tables, and matched with it if the variables of the side are
near to each other. -/
theorem load_is_safe {bytes : Archive.Bytes} {s : Statement} (ok : load ctx bytes = .ok s) :
    s.ctx = ctx ∧
      (∃ left right rest rest', Archive.Columns.take bytes = .ok (left, rest) ∧
        Archive.Columns.take rest = .ok (right, rest') ∧ left.CountArgs ∧ right.CountArgs) ∧
      (∀ side, (s.side side).stored.graph.IsSafe ctx ∧ (s.side side).graph.IsAcyclic) ∧
      ((∃ text, s.text = .ok text) ↔ s.equation.FitRows) ∧
      ((∃ n, s.height = .ok n) ↔ s.equation.FitRows) ∧
      (∀ k : Kernel, k.ctx = ctx ∨ k.ctx.isExtensionOf ctx = true →
        (k.isValid [s] = .ok true ↔ s.equation.FitRows)) ∧
      ∀ side (target : Expression), target.graph.IsAcyclic →
        (TermGraph.foldPairOr TermGraph.comparison false (s.side side).graph target.graph).run.run =
          .ok ((s.side side).identical target) ∧
        (DenseMap.IsNarrow (s.side side).term.vars →
          ∃ answer, (s.side side).match? target = .ok answer) := by
  obtain ⟨left, right, rest, rest', hleft, hright, known, known', rfl⟩ := load_eq_ok_iff.1 ok
  obtain ⟨-, ordered⟩ := TermGraph.isOf_of_load hleft
  obtain ⟨-, ordered'⟩ := TermGraph.isOf_of_load hright
  obtain ⟨columns, htake, -⟩ := TermGraph.load_eq_ok_iff.1 hleft
  obtain ⟨columns', htake', -⟩ := TermGraph.load_eq_ok_iff.1 hright
  have safe := known.isSafe ordered
  have safe' := known'.isSafe ordered'
  have denotes : Denotes ⟨ctx, .own left, .own right⟩ ⟨left.term, right.term⟩ :=
    ⟨safe.stores _ safe.root, safe'.stores _ safe'.root⟩
  have acyclic : ∀ side, (Statement.side ⟨ctx, .own left, .own right⟩ side).graph.IsAcyclic := by
    rintro (_ | _)
    · exact denotes.lhs.isAcyclic safe.args
    · exact denotes.rhs.isAcyclic safe'.args
  refine ⟨rfl, ⟨_, _, rest, rest', htake, htake', Archive.Columns.countArgs_ofGraph columns,
    Archive.Columns.countArgs_ofGraph columns'⟩, ?_, ?_, ?_, ?_, ?_⟩
  · rintro (_ | _)
    · exact ⟨safe, acyclic .lhs⟩
    · exact ⟨safe', acyclic .rhs⟩
  · obtain ⟨text, htext⟩ := Equation.exists_text (e := ⟨left.term, right.term⟩) known.covers_term
      known'.covers_term
    constructor
    · rintro ⟨text, hsome⟩
      exact (denotes.text_eq_ok_iff.1 hsome).1
    · intro fit
      exact ⟨text, denotes.text_eq_ok_iff.2 ⟨fit, htext⟩⟩
  · constructor
    · rintro ⟨n, hsome⟩
      exact (denotes.height_eq_ok_iff.1 hsome).1
    · intro fit
      exact ⟨_, denotes.height_eq_ok_iff.2 ⟨fit, rfl⟩⟩
  · intro k grown
    exact isValid_of_covers denotes known.covers_term known'.covers_term grown
  · intro side target htarget
    refine ⟨TermGraph.foldPairOr_comparison (Expression.denotes_term (acyclic side))
      (Expression.denotes_term htarget), fun narrow => ?_⟩
    obtain ⟨answer, hinto⟩ := Expression.exists_matchInto (acyclic side) htarget
      (DenseMap.hasRoom_empty narrow)
    exact ⟨_, bind_eq_ok.2 ⟨answer, hinto, rfl⟩⟩

/-- The left side has a record that is out of reach of its root. -/
def padded : Statement :=
  ⟨.involution, .own ⟨.func 1, #[⟨0, [.free 7]⟩, ⟨0, [.func 0]⟩, ⟨0, [.func 1]⟩]⟩,
    .own ⟨.free 7, #[]⟩⟩

theorem load_is_safe_padded :
    load .involution padded.save = .ok padded ∧
      (∀ side, (padded.side side).stored.graph.IsSafe .involution) ∧
      (∃ text, padded.text = .ok text) ∧ (Kernel.involution {}).isValid [padded] = .ok true := by
  have ok : load .involution padded.save = .ok padded := by decide +kernel
  obtain ⟨-, -, hsafe, htext, -, hvalid, -⟩ := load_is_safe ok
  have fit : padded.equation.FitRows := Equation.fitRows_of_isNarrow (by decide +kernel)
  exact ⟨ok, fun side => (hsafe side).1, htext.2 fit, (hvalid _ (.inl rfl)).2 fit⟩

/-- A statement whose variables are the first and the last one of all is accepted, and then it can
neither be printed nor measured, and no kernel can tell if it is typed. -/
theorem load_is_safe_not_apart :
    load .paired apart.save = .ok apart ∧ apart.text = .error .rowTooLong ∧
      apart.height = .error .rowTooLong ∧
      ∀ k : Kernel, k.ctx = .paired → k.isValid [apart] = .error .rowTooLong := by
  refine ⟨by decide +kernel, rfl, rfl, fun k hk => ?_⟩
  rw [isValid_singleton, hk]
  rfl

end Statement

end Equational
