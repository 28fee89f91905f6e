import Equational.Proofs.Handlers
import Equational.Proofs.Meeting

/-!
# Comparing stored terms

Expressions are compared by walking through them side by side, with a state that the variables of
the first one change. Such a walk takes the values of all arguments together, so it goes on after a
difference, where the recursion on terms stops. What is read off the state at the end is the same
(`Comparison.agrees_foldPairFrom`), and the walk fails only if a row of the state gets too long. So
the renaming that is found in rows is the one that is found in maps
(`Expression.agrees_equivalentUnder`).
-/

namespace Equational

/-! ### Terms side by side -/

namespace Term

variable {S : Type} {step : Nat → Term → S → Option S}

mutual
/-- Goes through two terms side by side. Each variable of the first one meets a part of the second
one, which ends the walk or changes what is known. -/
def pairWith (step : Nat → Term → S → Option S) : Term → Term → S → Option S
  | .var id, u, s => step id u s
  | .const c, .const d, s => if c = d then some s else none
  | .app f ts, .app g us, s => if f = g then pairArgs step ts us s else none
  | _, _, _ => none
def pairArgs (step : Nat → Term → S → Option S) : List Term → List Term → S → Option S
  | [], [], s => some s
  | t :: ts, u :: us, s =>
    match pairWith step t u s with
    | some s => pairArgs step ts us s
    | none => none
  | _, _, _ => none
end

theorem pairArgs_cons (t u : Term) (ts us : List Term) (s : S) :
    pairArgs step (t :: ts) (u :: us) s = (t.pairWith step u s).bind (pairArgs step ts us) := by
  rw [pairArgs]
  cases t.pairWith step u s with
  | none => rfl
  | some s' => rfl

theorem pairArgs_of_length_ne {ts us : List Term} (differ : ts.length ≠ us.length) (s : S) :
    pairArgs step ts us s = none := by
  induction ts generalizing us s with
  | nil =>
    cases us with
    | nil => exact absurd rfl differ
    | cons u us => rfl
  | cons t ts ih =>
    cases us with
    | nil => rfl
    | cons u us =>
      rw [pairArgs_cons]
      cases t.pairWith step u s with
      | none => rfl
      | some s' => exact ih (fun h => differ (congrArg Nat.succ h)) s'

end Term

/-! ### States and what they say -/

/-- How a walk with a state is related to one on terms. -/
structure Comparison (σ S : Type) where
  step : Nat → Term → S → Option S
  /-- What is known in a state. -/
  read : σ → S
  /-- What is true of every state that is met. -/
  Sound : σ → Prop
  /-- The state can take up what is still to come. -/
  Room : σ → Prop

namespace Comparison

open TermGraph (PairReduction)

variable {σ S : Type} {c : Comparison σ S} {s : σ} {ideal : Option S} {run : Checked (Bool × σ)}

/-- The run succeeds if there is room, and whenever it succeeds it tells what was to be found and
has it in the state. -/
structure Agrees (c : Comparison σ S) (s : σ) (ideal : Option S) (run : Checked (Bool × σ)) :
    Prop where
  runs : c.Room s → ∃ answer, run = .ok answer ∧ c.Room answer.2
  finds : c.Sound s → ∀ answer, run = .ok answer →
    c.Sound answer.2 ∧ ideal = if answer.1 then some (c.read answer.2) else none

theorem agrees_pure {answer : Bool} (h : ideal = if answer then some (c.read s) else none) :
    c.Agrees s ideal (.ok (answer, s)) where
  runs room := ⟨_, rfl, room⟩
  finds sound answer' ok := by
    obtain rfl := Except.ok.inj ok
    exact ⟨sound, h⟩

/-- A part is walked through after another one, also if the other one was different. -/
theorem Agrees.seq (first : c.Agrees s ideal run) {rest : S → Option S}
    {next : σ → Checked (Bool × σ)} (second : ∀ s', c.Agrees s' (rest (c.read s')) (next s')) :
    c.Agrees s (ideal.bind rest)
      (run >>= fun p => (fun q : Bool × σ => (p.1 && q.1, q.2)) <$> next p.2) where
  runs room := by
    obtain ⟨p, hp, room'⟩ := first.runs room
    obtain ⟨q, hq, room''⟩ := (second p.2).runs room'
    exact ⟨(p.1 && q.1, q.2), by rw [hp, ok_bind, hq]; rfl, room''⟩
  finds sound answer ok := by
    obtain ⟨p, hp, ok⟩ := bind_eq_ok.1 ok
    obtain ⟨sound', hideal⟩ := first.finds sound p hp
    cases hq : next p.2 with
    | error cause =>
      rw [hq] at ok
      cases ok
    | ok q =>
      rw [hq] at ok
      obtain rfl := Except.ok.inj ok
      obtain ⟨sound'', hrest⟩ := (second p.2).finds sound' q hq
      refine ⟨sound'', ?_⟩
      obtain ⟨answer, s'⟩ := p
      cases answer with
      | true =>
        rw [hideal]
        exact hrest
      | false =>
        rw [hideal]
        rfl

/-- The answer also depends on the symbols. -/
theorem Agrees.ofSymbols (h : c.Agrees s ideal run) (f g : Nat) :
    c.Agrees s (if f = g then ideal else none)
      ((fun p : Bool × σ => (f == g && p.1, p.2)) <$> run) where
  runs room := by
    obtain ⟨p, hp, room'⟩ := h.runs room
    exact ⟨(f == g && p.1, p.2), by rw [hp]; rfl, room'⟩
  finds sound answer ok := by
    cases hrun : run with
    | error cause =>
      rw [hrun] at ok
      cases ok
    | ok p =>
      rw [hrun] at ok
      obtain rfl := Except.ok.inj ok
      obtain ⟨sound', hideal⟩ := h.finds sound p hrun
      refine ⟨sound', ?_⟩
      by_cases hsymbols : f = g
      · simp [hsymbols, hideal]
      · simp [hsymbols]

/-- What a variable does to the node that it meets. -/
def meetVar (r : PairReduction (StateT σ Checked) Bool) (id : Nat) : Node → StateT σ Checked Bool
  | .free j => r.free id j
  | node => r.other (.free id) node

/-- The handlers compare what is not a variable, and each variable follows the steps. The first
condition holds of the variables of the first term, and the second one of those of the second. -/
structure Compares (c : Comparison σ S) (r : PairReduction (StateT σ Checked) Bool) (b : TermGraph)
    (left right : Nat → Prop) : Prop where
  const : ∀ x y, r.const x y = pure (x == y)
  func : ∀ f g args, r.func f g args = pure (f == g && args.all id)
  other : ∀ x y, x.kind ≠ .free → r.other x y = pure false
  leaf : ∀ id y u s, left id → b.Stores y u → (∀ i ∈ u.vars, right i) →
    c.Agrees s (c.step id u (c.read s)) ((meetVar r id y).run s)

variable {r : PairReduction (StateT σ Checked) Bool} {a b : TermGraph} {left right : Nat → Prop}
  {meet : Node → Node → StateT σ Checked Bool} {x y : Node} {t u : Term}

theorem agrees_args {xs ys : List Node} {term term' : Node → Term} (equal : xs.length = ys.length)
    (each : ∀ x ∈ xs, ∀ y ∈ ys, ∀ s,
      c.Agrees s ((term x).pairWith c.step (term' y) (c.read s)) ((meet x y).run s)) (s : σ) :
    c.Agrees s (Term.pairArgs c.step (xs.map term) (ys.map term') (c.read s))
      ((fun p : List Bool × σ => (p.1.all id, p.2)) <$>
        ((xs.zip ys).mapM fun pair => meet pair.1 pair.2).run s) := by
  induction xs generalizing ys s with
  | nil =>
    cases ys with
    | nil => exact agrees_pure rfl
    | cons y ys => cases equal
  | cons x xs ih =>
    cases ys with
    | nil => cases equal
    | cons y ys =>
      have hrest := ih (Nat.succ.inj equal) fun x' hx' y' hy' =>
        each x' (List.mem_cons_of_mem x hx') y' (List.mem_cons_of_mem y hy')
      have h := (each x List.mem_cons_self y List.mem_cons_self s).seq hrest
      rw [List.map_cons, List.map_cons, Term.pairArgs_cons]
      simpa [Function.comp_def] using h

/-- **Walking through two stored terms** finds what the recursion on the terms finds. -/
theorem Compares.agrees_meet (compares : c.Compares r b left right)
    (meeting : TermGraph.IsMeeting r a b meet) (stored : a.Stores x t) (stored' : b.Stores y u)
    (hleft : ∀ id ∈ t.vars, left id) (hright : ∀ id ∈ u.vars, right id) (s : σ) :
    c.Agrees s (t.pairWith c.step u (c.read s)) ((meet x y).run s) := by
  induction stored generalizing y u s with
  | free i =>
    have h := compares.leaf i y u s (hleft i (Term.mem_vars_var.2 rfl)) stored' hright
    have hmeet : meet (.free i) y = meetVar r i y := by
      cases y with
      | free j => exact meeting.free i j
      | const d => exact meeting.kind _ _ (by simp [Node.kind])
      | func j => exact meeting.kind _ _ (by simp [Node.kind])
    rw [hmeet, Term.pairWith]
    exact h
  | const d =>
    cases stored' with
    | const d' =>
      rw [meeting.const, compares.const, Term.pairWith]
      refine agrees_pure ?_
      simp
    | free j =>
      rw [meeting.kind _ _ (by simp [Node.kind]), compares.other _ _ (by simp [Node.kind])]
      exact agrees_pure rfl
    | func =>
      rw [meeting.kind _ _ (by simp [Node.kind]), compares.other _ _ (by simp [Node.kind])]
      exact agrees_pure rfl
  | @func i p term found args ih =>
    cases stored' with
    | free j =>
      rw [meeting.kind _ _ (by simp [Node.kind]), compares.other _ _ (by simp [Node.kind])]
      exact agrees_pure rfl
    | const d =>
      rw [meeting.kind _ _ (by simp [Node.kind]), compares.other _ _ (by simp [Node.kind])]
      exact agrees_pure rfl
    | @func j q term' found' args' =>
      rw [Term.pairWith]
      by_cases harity : p.arity = q.arity
      · have each : ∀ x ∈ p.args, ∀ y ∈ q.args, ∀ s,
            c.Agrees s ((term x).pairWith c.step (term' y) (c.read s)) ((meet x y).run s) := by
          intro x hx y hy s
          refine ih x hx (args' y hy) (fun id hid => hleft id ?_) (fun id hid => hright id ?_) s
          · exact Term.mem_vars_app.2 ⟨_, List.mem_map_of_mem hx, hid⟩
          · exact Term.mem_vars_app.2 ⟨_, List.mem_map_of_mem hy, hid⟩
        have h := (agrees_args harity each s).ofSymbols p.symbol q.symbol
        rw [meeting.func i j p q _ _ (.func found args) (.func found' args') found found' harity,
          StateT.run_bind]
        simp only [compares.func]
        cases hrun : ((p.args.zip q.args).mapM fun pair => meet pair.1 pair.2).run s with
        | error cause =>
          rw [hrun] at h
          exact h
        | ok results =>
          rw [hrun] at h
          exact h
      · rw [meeting.arity i j p q found found' harity, compares.other _ _ (by simp [Node.kind]),
          Term.pairArgs_of_length_ne (by simpa [Record.arity] using harity)]
        exact agrees_pure (by simp)

theorem foldPairFrom_eq (stored : a.Stores a.root t) (stored' : b.Stores b.root u) (s : σ) :
    TermGraph.foldPairFrom r a b s = (TermGraph.reducePair r a b).run s := by
  have hterm : a.term = t := stored.termAt_eq
  rw [TermGraph.foldPairFrom, TermGraph.foldPair,
    TermGraph.foldPairWithin_eq (TermGraph.isMeeting_reducePairFrom r a b) stored stored'
      (Nat.le_of_eq (congrArg Term.visits hterm.symm))]
  show (((Except.ok <$> TermGraph.reducePair r a b : StateT σ Checked _).run s) >>= _) = _
  rw [StateT.run_map]
  cases (TermGraph.reducePair r a b).run s with
  | error cause => rfl
  | ok answer => rfl

theorem Compares.agrees_foldPairFrom (compares : c.Compares r b left right)
    (stored : a.Stores a.root t) (stored' : b.Stores b.root u) (hleft : ∀ id ∈ t.vars, left id)
    (hright : ∀ id ∈ u.vars, right id) (s : σ) :
    c.Agrees s (t.pairWith c.step u (c.read s)) (TermGraph.foldPairFrom r a b s) := by
  rw [foldPairFrom_eq stored stored']
  exact compares.agrees_meet (TermGraph.isMeeting_reducePairFrom r a b) stored stored' hleft hright
    s

/-- Two pairs are compared one after the other, if the first ones did not differ. -/
theorem Agrees.both (first : c.Agrees s ideal run) {rest : S → Option S}
    {next : σ → Checked (Bool × σ)} (second : ∀ s', c.Agrees s' (rest (c.read s')) (next s')) :
    (c.Room s → ∃ answer : Bool,
      (run >>= fun p => if p.1 then Prod.fst <$> next p.2 else pure false) = .ok answer) ∧
    (c.Sound s → ∀ answer : Bool,
      (run >>= fun p => if p.1 then Prod.fst <$> next p.2 else pure false) = .ok answer →
        answer = (ideal.bind rest).isSome) := by
  constructor
  · intro room
    obtain ⟨⟨matched, s'⟩, hp, room'⟩ := first.runs room
    rw [hp]
    cases matched with
    | false => exact ⟨false, rfl⟩
    | true =>
      obtain ⟨q, hq, -⟩ := (second s').runs room'
      exact ⟨q.1, by rw [ok_bind, if_pos rfl, hq]; rfl⟩
  · intro sound answer ok
    obtain ⟨⟨matched, s'⟩, hp, ok⟩ := bind_eq_ok.1 ok
    obtain ⟨sound', hideal⟩ := first.finds sound _ hp
    cases matched with
    | false =>
      rw [hideal]
      exact (Except.ok.inj ok).symm
    | true =>
      rw [hideal]
      rw [if_pos rfl] at ok
      cases hq : next s' with
      | error cause =>
        rw [hq] at ok
        cases ok
      | ok q =>
        rw [hq] at ok
        obtain rfl := Except.ok.inj ok
        obtain ⟨-, hrest⟩ := (second s').finds sound' q hq
        show q.1 = (rest (c.read s')).isSome
        rw [hrest]
        cases q.1 with
        | true => rfl
        | false => rfl

end Comparison

/-! ### Renamings in rows -/

namespace Renaming

/-- Sends a variable to what it meets, which has to be a variable. -/
def meet (a : Nat) : Term → Renaming → Option Renaming
  | .var b, r => r.send a b
  | _, _ => none

end Renaming

namespace Term

mutual
theorem renameInto_eq (t u : Term) (r : Renaming) :
    t.renameInto u r = t.pairWith Renaming.meet u r := by
  cases t with
  | var a =>
    cases u with
    | var b => rfl
    | const d => rfl
    | app g us => rfl
  | const c =>
    cases u with
    | var b => rfl
    | const d => rfl
    | app g us => rfl
  | app f ts =>
    cases u with
    | var b => rfl
    | const d => rfl
    | app g us => rw [renameInto, pairWith, renameArgs_eq ts us r]
theorem renameArgs_eq (ts us : List Term) (r : Renaming) :
    renameArgs ts us r = pairArgs Renaming.meet ts us r := by
  cases ts with
  | nil =>
    cases us with
    | nil => rfl
    | cons u us => rfl
  | cons t ts =>
    cases us with
    | nil => rfl
    | cons u us =>
      rw [renameArgs, pairArgs_cons, renameInto_eq t u r]
      cases t.pairWith Renaming.meet u r with
      | none => rfl
      | some r' => exact renameArgs_eq ts us r'
end

end Term

namespace Expression

open DenseMap (HasRoom IsNarrow)

/-- The renaming that two rows stand for. -/
def RenamingRows.renaming (rows : RenamingRows) : Renaming :=
  ⟨rows.forward.toIdMap, rows.backward.toIdMap⟩

/-- There is room for the first variables on the one side and for the second on the other. -/
structure RenamingRows.HasRoom (rows : RenamingRows) (ids ids' : List Nat) : Prop where
  forward : rows.forward.HasRoom ids
  backward : rows.backward.HasRoom ids'

def renamingComparison (ids ids' : List Nat) : Comparison RenamingRows Renaming where
  step := Renaming.meet
  read := RenamingRows.renaming
  Sound _ := True
  Room rows := rows.HasRoom ids ids'

variable {ids ids' : List Nat}

theorem run_pairing_of_new {rows : RenamingRows} {i j : Nat} (image : rows.forward.lookup i = none)
    (origin : rows.backward.lookup j = none) :
    (pairing.free i j).run rows = (do
      let p ← rows.forward.insert i j
      let q ← rows.backward.insert j i
      pure (true, ⟨p.2, q.2⟩)) := by
  simp only [pairing, StateT.run_bind, StateT.run_get, DenseMap.get?_eq, pure_bind, image,
    origin]
  cases rows.forward.insert i j with
  | error cause => rfl
  | ok p =>
    cases rows.backward.insert j i with
    | error cause => rfl
    | ok q => rfl

theorem run_pairing_of_known {rows : RenamingRows} {i j i' j' : Nat}
    (image : rows.forward.lookup i = some j') (origin : rows.backward.lookup j = some i') :
    (pairing.free i j).run rows = .ok (j' == j && i' == i, rows) := by
  simp only [pairing, StateT.run_bind, StateT.run_get, DenseMap.get?_eq, pure_bind, image,
    origin]
  rfl

theorem run_pairing_of_taken {rows : RenamingRows} {i j : Nat}
    (taken : (rows.forward.lookup i).isSome ≠ (rows.backward.lookup j).isSome) :
    (pairing.free i j).run rows = .ok (false, rows) := by
  simp only [pairing, StateT.run_bind, StateT.run_get, DenseMap.get?_eq, pure_bind]
  cases himage : rows.forward.lookup i with
  | none =>
    cases horigin : rows.backward.lookup j with
    | none => simp [himage, horigin] at taken
    | some i' => rfl
  | some j' =>
    cases horigin : rows.backward.lookup j with
    | none => rfl
    | some i' => simp [himage, horigin] at taken

/-- Two variables are sent to each other. -/
theorem agrees_pairing_free {i j : Nat} (hi : i ∈ ids) (hj : j ∈ ids') (rows : RenamingRows) :
    (renamingComparison ids ids').Agrees rows (rows.renaming.send i j)
      ((pairing.free i j).run rows) := by
  have hforward : rows.renaming.forward.get? i = rows.forward.lookup i :=
    DenseMap.get?_toIdMap rows.forward i
  have hbackward : rows.renaming.backward.get? j = rows.backward.lookup j :=
    DenseMap.get?_toIdMap rows.backward j
  rw [Renaming.send, hforward, hbackward]
  cases himage : rows.forward.lookup i with
  | none =>
    cases horigin : rows.backward.lookup j with
    | some i' =>
      rw [run_pairing_of_taken (by simp [himage, horigin])]
      exact Comparison.agrees_pure rfl
    | none =>
      have hread : Renaming.mk (rows.renaming.forward.insert i j)
          (rows.renaming.backward.insert j i) =
          RenamingRows.renaming ⟨rows.forward.bound i j, rows.backward.bound j i⟩ := by
        exact (congrArg₂ Renaming.mk (DenseMap.toIdMap_bound rows.forward i j)
          (DenseMap.toIdMap_bound rows.backward j i)).symm
      rw [run_pairing_of_new himage horigin, DenseMap.insert_eq, DenseMap.insert_eq]
      refine ⟨fun room => ?_, fun _ answer ok => ⟨trivial, ?_⟩⟩
      · rw [if_pos (room.forward.sizeFor_le hi), if_pos (room.backward.sizeFor_le hj)]
        exact ⟨_, rfl, room.forward.bound hi j, room.backward.bound hj i⟩
      · obtain ⟨p, hp, ok⟩ := bind_eq_ok.1 ok
        obtain ⟨q, hq, ok⟩ := bind_eq_ok.1 ok
        obtain rfl := Except.ok.inj ok
        split at hp
        next =>
          obtain rfl := Except.ok.inj hp
          split at hq
          next =>
            obtain rfl := Except.ok.inj hq
            exact congrArg some hread
          next => cases hq
        next => cases hp
  | some j' =>
    cases horigin : rows.backward.lookup j with
    | none =>
      rw [run_pairing_of_taken (by simp [himage, horigin])]
      exact Comparison.agrees_pure rfl
    | some i' =>
      rw [run_pairing_of_known himage horigin]
      refine Comparison.agrees_pure ?_
      simp [renamingComparison]

theorem compares_pairing (b : TermGraph) :
    (renamingComparison ids ids').Compares pairing b (· ∈ ids) (· ∈ ids') where
  const x y := rfl
  func f g args := rfl
  other x y _ := rfl
  leaf i y u rows hi stored hright := by
    cases stored with
    | free j => exact agrees_pairing_free hi (hright j (Term.mem_vars_var.2 rfl)) rows
    | const d => exact Comparison.agrees_pure rfl
    | func => exact Comparison.agrees_pure rfl

variable {a b : Expression} {t u : Term}

/-- **Continuing a renaming** in rows finds what is found in maps. -/
theorem agrees_equivalentUnder (ha : a.Denotes t) (hb : b.Denotes u)
    (hids : ∀ id ∈ t.vars, id ∈ ids)
    (hids' : ∀ id ∈ u.vars, id ∈ ids') (rows : RenamingRows) :
    (renamingComparison ids ids').Agrees rows (t.renameInto u rows.renaming)
      (a.equivalentUnder b rows) := by
  rw [Term.renameInto_eq]
  exact (compares_pairing b.graph).agrees_foldPairFrom ha hb hids hids' rows

end Expression

/-! ### Equivalent statements -/

namespace Statement

open DenseMap (IsNarrow)

variable {s s' : Statement} {e e' : Equation} {lhs rhs : Expression} {l r : Term}

theorem both_equivalentTo (hs : s.Denotes e) (hl : lhs.Denotes l) (hr : rhs.Denotes r) :
    (IsNarrow e.vars → IsNarrow (Equation.vars ⟨l, r⟩) →
      ∃ answer, s.equivalentTo lhs rhs = .ok answer) ∧
    ∀ answer, s.equivalentTo lhs rhs = .ok answer → answer = (e.renames ⟨l, r⟩).isSome := by
  have hvars : ∀ {e : Equation},
      (∀ id ∈ e.lhs.vars, id ∈ e.vars) ∧ ∀ id ∈ e.rhs.vars, id ∈ e.vars :=
    ⟨fun id hid => Equation.mem_vars.2 (.inl hid), fun id hid => Equation.mem_vars.2 (.inr hid)⟩
  have hleft := Expression.agrees_equivalentUnder hs.lhs hl hvars.1 (hvars (e := ⟨l, r⟩)).1 {}
  have hboth := hleft.both fun rows =>
    Expression.agrees_equivalentUnder hs.rhs hr hvars.2 (hvars (e := ⟨l, r⟩)).2 rows
  have hrun : s.equivalentTo lhs rhs = (s.lhs.equivalentUnder lhs {} >>= fun p =>
      if p.1 then Prod.fst <$> s.rhs.equivalentUnder rhs p.2 else pure false) := by
    rw [equivalentTo]
    refine congrArg (_ >>= ·) (funext fun p => ?_)
    obtain ⟨same, rows⟩ := p
    cases same with
    | false => rfl
    | true =>
      show (s.rhs.equivalentUnder rhs rows >>= _) = Prod.fst <$> s.rhs.equivalentUnder rhs rows
      cases s.rhs.equivalentUnder rhs rows with
      | error cause => rfl
      | ok q => rfl
  have hideal : (e.lhs.renameInto l {}).bind (e.rhs.renameInto r) = e.renames ⟨l, r⟩ := by
    rw [Equation.renames]
    cases e.lhs.renameInto l {} with
    | none => rfl
    | some found => rfl
  rw [hrun, ← hideal]
  exact ⟨fun narrow narrow' =>
    hboth.1 ⟨DenseMap.hasRoom_empty narrow, DenseMap.hasRoom_empty narrow'⟩,
    hboth.2 trivial⟩

theorem Denotes.of_equivalent (hs : s.Denotes e) (hs' : s'.Denotes e') {answer : Bool}
    (ok : s.equivalent s' = .ok answer) : answer = e.equivalent e' := by
  obtain ⟨first, hfirst, ok⟩ := bind_eq_ok.1 ok
  have hright := (both_equivalentTo hs hs'.lhs hs'.rhs).2 first hfirst
  rw [Equation.equivalent, ← show first = (e.renames e').isSome from hright]
  cases first with
  | true => exact (Except.ok.inj ok).symm
  | false => exact (both_equivalentTo hs hs'.rhs hs'.lhs).2 answer ok

/-- **Statements are compared up to renaming**, if the variables of each are near to each other. -/
theorem Denotes.equivalent_eq (hs : s.Denotes e) (hs' : s'.Denotes e') (narrow : IsNarrow e.vars)
    (narrow' : IsNarrow e'.vars) : s.equivalent s' = .ok (e.equivalent e') := by
  have hturned : IsNarrow (Equation.vars ⟨e'.rhs, e'.lhs⟩) := narrow'.mono fun id hid =>
    Equation.mem_vars.2 (Equation.mem_vars.1 hid).symm
  obtain ⟨first, hfirst⟩ := (both_equivalentTo hs hs'.lhs hs'.rhs).1 narrow narrow'
  obtain ⟨second, hsecond⟩ := (both_equivalentTo hs hs'.rhs hs'.lhs).1 narrow hturned
  have hrun : ∃ answer, s.equivalent s' = .ok answer := by
    rw [equivalent, hfirst, ok_bind]
    cases first with
    | true => exact ⟨true, rfl⟩
    | false => exact ⟨second, hsecond⟩
  obtain ⟨answer, ok⟩ := hrun
  rw [ok, hs.of_equivalent hs' ok]

/-- The equation `f(x, y) = x`, where the variables are the first and the last one of all. -/
def apart : Statement := ⟨.paired, Expression.apart.stored, .own { root := .free 0 }⟩

theorem isAcyclic_apart : apart.IsAcyclic :=
  ⟨Expression.isAcyclic_apart, TermGraph.Stores.isAcyclic (.free 0) (by decide)⟩

end Statement

end Equational
