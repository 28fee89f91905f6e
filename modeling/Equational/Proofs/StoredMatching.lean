import Equational.Proofs.Comparing
import Equational.Proofs.Filling
import Equational.Proofs.Matching

/-!
# Matching stored terms

What is bound to a variable is a view into the target. As long as the views show the terms that they
stand for, the walk through the records finds what is found in terms
(`Expression.agrees_matchInto`), and the law of matching carries over: if records lead in no circles
then a match is found whenever there is one, binds the variables of the pattern and no others, and
filling in the bindings gives the target. Bindings are kept in a row, so a pattern whose variables
are far apart cannot be matched.
-/

namespace Equational

namespace Substitution

/-- Binds a variable to what it meets, unless it is bound to something else. -/
def meet (id : Nat) (u : Term) (bound : Substitution) : Option Substitution :=
  match bound.get? id with
  | some kept => if kept = u then some bound else none
  | none => some (bound.insert id u)

end Substitution

namespace Term

mutual
theorem matchInto_eq (t u : Term) (bound : Substitution) :
    t.matchInto u bound = t.pairWith Substitution.meet u bound := by
  cases t with
  | var id =>
    unfold matchInto pairWith Substitution.meet
    cases bound.get? id with
    | none => rfl
    | some kept => rfl
  | const c =>
    cases u with
    | var id => rfl
    | const d => rfl
    | app g us => rfl
  | app f ts =>
    cases u with
    | var id => rfl
    | const d => rfl
    | app g us => rw [matchInto, pairWith, matchArgs_eq ts us bound]
theorem matchArgs_eq (ts us : List Term) (bound : Substitution) :
    matchArgs ts us bound = pairArgs Substitution.meet ts us bound := by
  cases ts with
  | nil =>
    cases us with
    | nil => rfl
    | cons u us => rfl
  | cons t ts =>
    cases us with
    | nil => rfl
    | cons u us =>
      rw [matchArgs, pairArgs_cons, matchInto_eq t u bound]
      cases t.pairWith Substitution.meet u bound with
      | none => rfl
      | some next => exact matchArgs_eq ts us next
end

end Term

namespace Expression

open DenseMap (HasRoom IsNarrow)

variable {e pattern target : Expression} {node : Node} {t u : Term}
  {homes : Context → Prop} {bound result : DenseMap Expression} {ids : List Nat}

/-! ### Bindings in a row -/

theorem exists_viewAt (h : e.graph.Stores node t) :
    ∃ part, e.viewAt node = .ok part ∧ part.ctx = e.ctx ∧ part.Denotes t := by
  cases h with
  | free id => exact ⟨_, rfl, rfl, .free id⟩
  | const symbol => exact ⟨_, rfl, rfl, .const symbol⟩
  | @func index r term found args =>
    have hlt : index < e.stored.graph.size := (Array.getElem?_eq_some_iff.1 found).1
    have hroot : e.stored.graph.setRoot (.func index) = .ok { e.graph with root := .func index } :=
      if_pos hlt
    have hview : e.viewAt (.func index) =
        .ok ⟨e.ctx, { e.stored with graph := { e.graph with root := .func index } }⟩ := by
      rw [viewAt, SharedGraph.viewAt, SharedGraph.setRoot, hroot]
      exact congrArg (fun stored => Except.ok (Expression.mk e.ctx stored)) (if_pos rfl)
    exact ⟨_, hview, rfl, TermGraph.Stores.func found fun arg harg =>
      (args arg harg).mono fun _ _ _ found => found⟩

/-- The bindings there were are kept, what the ids are bound to stands for a term, and new bindings
are of one of the contexts. -/
structure Continues (homes : Context → Prop) (bound : DenseMap Expression) (ids : List Nat)
    (result : DenseMap Expression) : Prop where
  kept : ∀ id e, bound.lookup id = some e → result.lookup id = some e
  denotes : ∀ id ∈ ids, ∀ e, result.lookup id = some e → e.Denotes e.term
  homed : ∀ id e, result.lookup id = some e → bound.lookup id = some e ∨ homes e.ctx

def matchingComparison (homes : Context → Prop) (bound : DenseMap Expression) (ids : List Nat) :
    Comparison (DenseMap Expression) Substitution where
  step := Substitution.meet
  read := terms
  Sound := Continues homes bound ids
  Room m := m.HasRoom ids

theorem continues_empty (homes : Context → Prop) (ids : List Nat) :
    Continues homes .empty ids .empty := by
  have hempty : ∀ id (e : Expression), DenseMap.empty.lookup id ≠ some e := by
    simp [DenseMap.lookup, DenseMap.empty]
  exact ⟨fun _ _ h => h, fun id _ e h => absurd h (hempty id e), fun _ _ h => .inl h⟩

theorem run_bindOr_of_some {id : Nat} {kept : Expression} (h : result.lookup id = some kept)
    (part : Expression) (agrees : Expression → Bool) :
    (bindOr id part agrees).run result = .ok (agrees kept, result) := by
  simp only [bindOr, StateT.run_bind, StateT.run_get, DenseMap.get?_eq, pure_bind, h]
  rfl

theorem run_bindOr_of_none {id : Nat} (h : result.lookup id = none) (part : Expression)
    (agrees : Expression → Bool) :
    (bindOr id part agrees).run result = (do
      let p ← result.insert id part
      pure (true, p.2)) := by
  simp only [bindOr, StateT.run_bind, StateT.run_get, DenseMap.get?_eq, pure_bind, h]
  cases result.insert id part with
  | error cause => rfl
  | ok p => rfl

theorem agrees_bindOr {id : Nat} (hid : id ∈ ids) {part : Expression} (hpart : part.Denotes u)
    (home : homes part.ctx) {agrees : Expression → Bool}
    (hagrees : ∀ kept : Expression, kept.Denotes kept.term →
      agrees kept = (kept.term == u)) (m : DenseMap Expression) :
    (matchingComparison homes bound ids).Agrees m (Substitution.meet id u (terms m))
      ((bindOr id part agrees).run m) := by
  rw [Substitution.meet, get?_terms]
  cases hkept : m.lookup id with
  | some kept =>
    rw [run_bindOr_of_some hkept]
    refine ⟨fun room => ⟨_, rfl, room⟩, fun sound answer ok => ?_⟩
    obtain rfl := Except.ok.inj ok
    refine ⟨sound, ?_⟩
    show (if kept.term = u then some (terms m) else none) = if agrees kept = true then _ else _
    rw [hagrees kept (sound.denotes id hid kept hkept)]
    simp [matchingComparison]
  | none =>
    rw [run_bindOr_of_none hkept, DenseMap.insert_eq]
    refine ⟨fun room => ?_, fun sound answer ok => ?_⟩
    · rw [if_pos (room.sizeFor_le hid)]
      exact ⟨_, rfl, room.bound hid part⟩
    · obtain ⟨p, hp, ok⟩ := bind_eq_ok.1 ok
      obtain rfl := Except.ok.inj ok
      split at hp
      next =>
        obtain rfl := Except.ok.inj hp
        refine ⟨⟨fun i e he => ?_, fun i hi e he => ?_, fun i e he => ?_⟩, ?_⟩
        · have hne : i ≠ id := by
            rintro rfl
            cases hkept.symm.trans (sound.kept i e he)
          rw [DenseMap.lookup_bound, if_neg hne]
          exact sound.kept i e he
        · rw [DenseMap.lookup_bound] at he
          split at he
          next =>
            obtain rfl := Option.some.inj he
            exact hpart.denotes_term
          next => exact sound.denotes i hi e he
        · rw [DenseMap.lookup_bound] at he
          split at he
          next =>
            obtain rfl := Option.some.inj he
            exact .inr home
          next => exact sound.homed i e he
        · show some ((terms m).insert id u) = some (terms (m.bound id part))
          rw [terms, terms, DenseMap.toIdMap_bound, IdMap.map_insert, hpart.term_eq]
      next => cases hp

theorem compares_matching (home : homes target.ctx) :
    (matchingComparison homes bound ids).Compares (matching target) target.graph (· ∈ ids)
      fun _ => True where
  const x y := rfl
  func f g args := rfl
  other x y hx := by
    cases x with
    | free id => exact absurd rfl hx
    | const symbol => rfl
    | func index => rfl
  leaf id y u m hid stored _ := by
    have hviewed : ∀ y u, target.graph.Stores y u → (matchingComparison homes bound ids).Agrees m
        (Substitution.meet id u (terms m)) (((matching target).other (.free id) y).run m) := by
      intro y u stored
      obtain ⟨part, hview, hctx, hpart⟩ := exists_viewAt stored
      have hrun : ((matching target).other (.free id) y).run m =
          (bindOr id part fun kept => kept.identical part).run m := by
        show ((liftM (target.viewAt y) >>= _ : StateT (DenseMap Expression) Checked Bool).run m) = _
        rw [hview]
        rfl
      rw [hrun]
      refine agrees_bindOr hid hpart (hctx ▸ home) (fun kept _ => ?_) m
      rw [identical, hpart.term_eq]
    cases stored with
    | free j =>
      have hpart : (free target.ctx j).Denotes (.var j) := .free j
      refine agrees_bindOr hid hpart home (fun kept hkept => ?_) m
      rw [Bool.eq_iff_iff, beq_iff_eq, beq_iff_eq]
      constructor
      · intro root
        rw [Denotes, root] at hkept
        generalize kept.term = t at hkept ⊢
        cases hkept
        rfl
      · intro hterm
        rw [hterm] at hkept
        exact hkept.root_eq_free
    | const d => exact hviewed (.const d) _ (.const d)
    | func found args => exact hviewed (.func _) _ (.func found args)

/-- **Matching looks at nothing but the terms.** -/
theorem agrees_matchInto (home : homes target.ctx) (hpattern : pattern.Denotes t)
    (htarget : target.Denotes u) (hids : ∀ id ∈ t.vars, id ∈ ids) (m : DenseMap Expression) :
    (matchingComparison homes bound ids).Agrees m (t.matchInto u (terms m))
      (pattern.matchInto target m) := by
  rw [Term.matchInto_eq]
  exact (compares_matching home).agrees_foldPairFrom hpattern htarget hids (fun _ _ => trivial) m

/-! ### The law of matching -/

theorem extendedBy_terms {σ : Nat → Term} :
    (terms bound).ExtendedBy σ ↔ ∀ id e, bound.lookup id = some e → σ id = e.term := by
  simp only [Substitution.ExtendedBy, get?_terms, Option.map_eq_some_iff]
  constructor
  · intro h id e hid
    exact h id e.term ⟨e, hid, rfl⟩
  · rintro h id _ ⟨e, hid, rfl⟩
    exact h id e hid

theorem contains_terms (bound : DenseMap Expression) (id : Nat) :
    (terms bound).contains id = (bound.lookup id).isSome := by
  rw [IdMap.contains, get?_terms, Option.isSome_map]

/-- The bindings are those there were and one for each further variable of the pattern, and filling
them in turns the pattern into the target. -/
structure Completes (pattern target : Expression) (bound result : DenseMap Expression) : Prop where
  kept : ∀ id e, bound.lookup id = some e → result.lookup id = some e
  ids : ∀ id, (result.lookup id).isSome = true ↔
    (bound.lookup id).isSome = true ∨ id ∈ pattern.term.vars
  fills : ∀ e, pattern.mapFree result = .ok e → e.Denotes target.term ∧ e.identical target = true
  canFill : pattern.IsPlain → ∃ e, pattern.mapFree result = .ok e

theorem matchInto_terms (hpattern : pattern.graph.IsAcyclic) (htarget : target.graph.IsAcyclic)
    (hbound : ∀ id ∈ pattern.term.vars, ∀ e, bound.lookup id = some e → e.graph.IsAcyclic)
    {matched : Bool} (found : pattern.matchInto target bound = .ok (matched, result)) :
    Continues (· = target.ctx) bound pattern.term.vars result ∧
      pattern.term.matchInto target.term (terms bound) =
        if matched then some (terms result) else none := by
  have hagrees : (matchingComparison (· = target.ctx) bound pattern.term.vars).Agrees bound _ _ :=
    agrees_matchInto (by rfl) (denotes_term hpattern) (denotes_term htarget) (fun _ hid => hid)
      bound
  exact hagrees.finds ⟨fun _ _ h => h, fun id hid e he => denotes_term (hbound id hid e he),
    fun _ _ h => .inl h⟩ _ found

theorem exists_matchInto (hpattern : pattern.graph.IsAcyclic) (htarget : target.graph.IsAcyclic)
    (room : bound.HasRoom pattern.term.vars) :
    ∃ answer, pattern.matchInto target bound = .ok answer := by
  have hagrees : (matchingComparison (· = target.ctx) bound pattern.term.vars).Agrees bound _ _ :=
    agrees_matchInto (by rfl) (denotes_term hpattern) (denotes_term htarget) (fun _ hid => hid)
      bound
  obtain ⟨answer, ok, -⟩ := hagrees.runs room
  exact ⟨answer, ok⟩

theorem matched_iff (hpattern : pattern.graph.IsAcyclic) (htarget : target.graph.IsAcyclic)
    (hbound : ∀ id ∈ pattern.term.vars, ∀ e, bound.lookup id = some e → e.graph.IsAcyclic)
    {matched : Bool} (found : pattern.matchInto target bound = .ok (matched, result)) :
    matched = true ↔ ∃ σ : Nat → Term, (∀ id e, bound.lookup id = some e → σ id = e.term) ∧
      pattern.term.bind σ = target.term := by
  obtain ⟨-, hideal⟩ := matchInto_terms hpattern htarget hbound found
  have hnarrows := pattern.term.matchInto_narrows target.term (terms bound)
  have hsome := hnarrows.isSome_iff
  rw [hideal] at hsome
  simp only [extendedBy_terms] at hsome
  rw [← hsome]
  cases matched with
  | true => simp
  | false => simp

theorem completes_of_matchInto (hpattern : pattern.graph.IsAcyclic)
    (htarget : target.graph.IsAcyclic)
    (hbound : ∀ id ∈ pattern.term.vars, ∀ e, bound.lookup id = some e → e.graph.IsAcyclic)
    (found : pattern.matchInto target bound = .ok (true, result)) :
    pattern.Completes target bound result := by
  obtain ⟨⟨hkept, hdenotes, -⟩, hideal⟩ := matchInto_terms hpattern htarget hbound found
  have hnarrows := pattern.term.matchInto_narrows target.term (terms bound)
  rw [hideal] at hnarrows
  obtain ⟨hextended, hids⟩ := hnarrows
  have hfilled := (denotes_term hpattern).substituted_lookup hdenotes
  rw [Term.subst, ((hextended _).1 (Substitution.extendedBy_image _)).2] at hfilled
  refine ⟨hkept, fun id => ?_, fun e he => ?_, fun plain => ?_⟩
  · have hid := hids id
    rwa [contains_terms, contains_terms] at hid
  · obtain ⟨-, rfl⟩ := mapFree_eq_ok_iff.1 he
    exact ⟨hfilled, by rw [identical, hfilled.term_eq, beq_self_eq_true]⟩
  · exact ⟨_, mapFree_eq_ok_iff.2 ⟨fun _ => ⟨plain.toFits, fun _ _ _ => plain.covered⟩, rfl⟩⟩

/-- **Matching is sound, complete and minimal.** Let no records of the pattern, of the target and of
what the pattern's variables are bound to lead in a circle. If the row of the bindings has room for
the variables of the pattern then there is an answer. Whenever there is one, it tells if some
substitution agrees with the bindings and turns the pattern into the target, and a match completes
the bindings. From no bindings there is an answer if the variables of the pattern are near to each
other. It tells if the target is an instance of the pattern, and nothing is bound if it is not. -/
theorem matching_exact (hpattern : pattern.graph.IsAcyclic) (htarget : target.graph.IsAcyclic) :
    (∀ bound : DenseMap Expression,
      (∀ id ∈ pattern.term.vars, ∀ e, bound.lookup id = some e → e.graph.IsAcyclic) →
        (bound.HasRoom pattern.term.vars → ∃ answer, pattern.matchInto target bound = .ok answer) ∧
        ∀ matched result, pattern.matchInto target bound = .ok (matched, result) →
          (matched = true ↔ ∃ σ : Nat → Term,
            (∀ id e, bound.lookup id = some e → σ id = e.term) ∧
              pattern.term.bind σ = target.term) ∧
          (matched = true → pattern.Completes target bound result)) ∧
      (IsNarrow pattern.term.vars → ∃ answer, pattern.match? target = .ok answer) ∧
      ∀ matched result, pattern.match? target = .ok (matched, result) →
        (matched = true ↔ ∃ σ : Nat → Term, pattern.term.bind σ = target.term) ∧
        (matched = true → pattern.Completes target .empty result) ∧
        ∀ id, (result.lookup id).isSome = true ↔ matched = true ∧ id ∈ pattern.term.vars := by
  refine ⟨fun bound hbound => ⟨exists_matchInto hpattern htarget, fun matched result found => ?_⟩,
    fun narrow => ?_, fun matched result found => ?_⟩
  · refine ⟨matched_iff hpattern htarget hbound found, ?_⟩
    rintro rfl
    exact completes_of_matchInto hpattern htarget hbound found
  · obtain ⟨answer, ok⟩ :=
      exists_matchInto hpattern htarget (DenseMap.hasRoom_empty narrow : (DenseMap.empty).HasRoom _)
    exact ⟨_, bind_eq_ok.2 ⟨answer, ok, rfl⟩⟩
  · obtain ⟨⟨found', bound⟩, hinto, ok⟩ := bind_eq_ok.1 found
    have hnone : ∀ id ∈ pattern.term.vars, ∀ e : Expression,
        DenseMap.empty.lookup id = some e → e.graph.IsAcyclic := by
      intro id _ e he
      simp [DenseMap.lookup, DenseMap.empty] at he
    have hiff := matched_iff hpattern htarget hnone hinto
    have hempty : ∀ id, (DenseMap.empty : DenseMap Expression).lookup id = none := by
      simp [DenseMap.lookup, DenseMap.empty]
    simp only [hempty, reduceCtorEq, false_implies, implies_true, true_and] at hiff
    cases found' with
    | true =>
      obtain ⟨rfl, rfl⟩ := Prod.mk.inj (Except.ok.inj ok)
      have hcompletes := completes_of_matchInto hpattern htarget hnone hinto
      refine ⟨hiff, fun _ => hcompletes, fun id => ?_⟩
      rw [hcompletes.ids id, hempty]
      simp
    | false =>
      obtain ⟨rfl, rfl⟩ := Prod.mk.inj (Except.ok.inj ok)
      refine ⟨hiff, by simp, fun id => ?_⟩
      rw [hempty]
      simp

/-- The variable of the pattern is bound to what it stands for, in a storage of its own. -/
def bindingTwice : DenseMap Expression :=
  DenseMap.empty.bound 0 (.ofTerm .paired (.app 1 [.var 0]))

theorem isPlain_twice : twice.IsPlain where
  denotes := denotes_term isAcyclic_twice
  fit := DenseSet.fitRow_of_isNarrow (by decide)
  covered := by
    have hterm : twice.term = .app 0 [.var 0, .var 0] := by decide
    rw [hterm]
    refine .app (Nat.zero_lt_succ 1) fun t ht => ?_
    obtain rfl : t = .var 0 := by simpa using ht
    exact .var 0

theorem matching_exact_doubled :
    (∃ result, twice.match? doubled = .ok (true, result)) ∧
      ∃ result, twice.matchInto doubled bindingTwice = .ok (true, result) ∧
        twice.Completes doubled bindingTwice result ∧
        ∃ e, twice.mapFree result = .ok e ∧ e.identical doubled = true := by
  obtain ⟨hinto, hanswers, hmatch⟩ := matching_exact isAcyclic_twice isAcyclic_doubled
  have hinstance : twice.term.bind (fun _ => .app 1 [.var 0]) = doubled.term := by decide
  have hbinding : ∀ id e, bindingTwice.lookup id = some e →
      e = .ofTerm .paired (.app 1 [.var 0]) := by
    intro id e he
    rw [bindingTwice, DenseMap.lookup_bound] at he
    split at he
    · exact (Option.some.inj he).symm
    · simp [DenseMap.lookup, DenseMap.empty] at he
  have hacyclic : ∀ id ∈ twice.term.vars, ∀ e, bindingTwice.lookup id = some e →
      e.graph.IsAcyclic := by
    intro id _ e he
    rw [hbinding id e he]
    exact TermGraph.isAcyclic_ofTerm (.app 1 [.var 0])
  have hvars : ∀ id ∈ twice.term.vars, 0 ≤ id ∧ id < 1 := by decide
  have hroom : bindingTwice.HasRoom twice.term.vars :=
    ⟨0, 1, by decide, (DenseMap.fitsIn_empty 0 1).bound (Nat.le_refl 0) Nat.one_pos _, hvars⟩
  obtain ⟨hruns, hfinds⟩ := hinto bindingTwice hacyclic
  obtain ⟨⟨matched, result⟩, found⟩ := hruns hroom
  obtain ⟨hiff, hcompletes⟩ := hfinds matched result found
  obtain rfl : matched = true := by
    refine hiff.2 ⟨fun _ => .app 1 [.var 0], fun id e he => ?_, hinstance⟩
    rw [hbinding id e he]
    exact (TermGraph.term_ofTerm (.app 1 [.var 0])).symm
  obtain ⟨e, he⟩ := (hcompletes rfl).canFill isPlain_twice
  obtain ⟨⟨matched, result'⟩, found'⟩ := hanswers (by decide)
  obtain rfl : matched = true := (hmatch matched result' found').1.2 ⟨_, hinstance⟩
  exact ⟨⟨result', found'⟩, result, found, hcompletes rfl, e, he, ((hcompletes rfl).fills e he).2⟩

/-- A pattern whose variables are the first and the last one of all is refused as soon as both are
to be bound, though it has instances. -/
theorem matching_exact_not_apart :
    apart.graph.IsAcyclic ∧ doubled.graph.IsAcyclic ∧
      (∃ σ : Nat → Term, apart.term.bind σ = doubled.term) ∧
      apart.matchInto doubled .empty = .error .rowTooLong ∧
      apart.match? doubled = .error .rowTooLong :=
  ⟨isAcyclic_apart, isAcyclic_doubled, ⟨fun _ => .app 1 [.var 0], by decide⟩, rfl, rfl⟩

end Expression

end Equational
