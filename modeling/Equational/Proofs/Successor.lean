import Equational.Cursor
import Equational.Proofs.Expansion

/-!
# Chains of successors

A state is a successor of another one if some cursor over the successors of the latter
gives it, however the cursor was moved there and whatever else was drawn in between, as
long as the rules stay the same. Proofs are chains of successors from a target.

The forefronts of successors are expected equations (`Kernel.IsSuccessor.expected`), and if there
is room for the rewrites then each of these is the forefront of a successor
(`Kernel.exists_successor`). So what can be reached is a matter of the equations on the way, and not
of the cursors. Where there is room for a target there is room for all that comes of it.
-/

namespace Equational

/-! ### What a cursor gives -/

namespace Cursor

/-- The cursor gives the state, at once or after it was moved on. -/
inductive Gives (rules : List Rule) : Cursor → ProofState → Prop
  | now {c : Cursor} {s : ProofState} (current : c.get = .ok s) : Gives rules c s
  | later {c c' : Cursor} {s : ProofState} {source source' : Source} {outcome : Checked Unit}
      (fixed : source.rules = rules)
      (moved : (advance.runOn c).run source = ((outcome, c'), source'))
      (rest : Gives rules c' s) : Gives rules c s

end Cursor

/-- What is left after an item, whether or not a violation was met. -/
def Reply.supply {α : Type} : Reply α → Supply α
  | .rest supply _ => supply
  | .broken _ left _ => left

variable {rules : List Rule} {lenient : Prop}

namespace Cursor

theorem run_advance_item (kind : CursorKind) (value : ProofState) (gauge : Gauge)
    (next : Source → Reply ProofState) (source : Source) :
    (advance.runOn ⟨kind, .item value gauge next⟩).run source =
      match next source with
      | .rest supply source => ((.ok (), ⟨kind, supply⟩), source)
      | .broken cause left source => ((.error cause, ⟨kind, left⟩), source) := by
  have hadvance : (advance.runOn ⟨kind, .item value gauge next⟩).run source =
      advance ⟨kind, .item value gauge next⟩ source := rfl
  rw [hadvance]
  cases hnext : next source with
  | rest supply source' => simp only [advance, hnext]
  | broken cause left source' => simp only [advance, hnext]

/-- A cursor gives what it gives after one more move. -/
theorem gives_next {kind : CursorKind} {value s : ProofState} {gauge : Gauge}
    {next : Source → Reply ProofState} {source : Source} (hs : source.rules = rules)
    (h : (Cursor.mk kind (next source).supply).Gives rules s) :
    (Cursor.mk kind (.item value gauge next)).Gives rules s := by
  have hmoved := run_advance_item kind value gauge next source
  cases hnext : next source with
  | rest supply source' =>
    rw [hnext] at h hmoved
    exact .later hs hmoved h
  | broken cause left source' =>
    rw [hnext] at h hmoved
    exact .later hs hmoved h

end Cursor

mutual
theorem Supply.Runs.gives (kind : CursorKind) :
    {supply : Supply ProofState} → {post : List ProofState → Prop} →
    supply.Runs rules lenient post →
    supply.Runs rules lenient fun items =>
      post items ∧ ∀ s ∈ items, (Cursor.mk kind supply).Gives rules s
  | .done _, _, h => ⟨h, by simp⟩
  | .item value gauge next, post, h => fun source hs =>
    (Reply.Runs.gives kind (h source hs)).mono fun items ⟨hpost, hgives⟩ =>
      ⟨hpost, fun s hmem => by
        rcases List.mem_cons.1 hmem with rfl | hmem
        · exact .now rfl
        · exact Cursor.gives_next hs (hgives s hmem)⟩
  | .stuck _ _, _, h => h
theorem Reply.Runs.gives (kind : CursorKind) :
    {reply : Reply ProofState} → {post : List ProofState → Prop} →
    reply.Runs rules lenient post →
    reply.Runs rules lenient fun items =>
      post items ∧ ∀ s ∈ items, (Cursor.mk kind reply.supply).Gives rules s
  | .rest _ _, _, ⟨hs, h⟩ => ⟨hs, Supply.Runs.gives kind h⟩
  | .broken _ _ _, _, h => h
end

mutual
theorem Supply.Runs.exists_items :
    {supply : Supply ProofState} → {post : List ProofState → Prop} →
    supply.Runs rules False post → ∃ items, post items
  | .done _, _, h => ⟨[], h⟩
  | .item value _ _, _, h =>
    let ⟨items, hitems⟩ := Reply.Runs.exists_items (h { rules } rfl)
    ⟨value :: items, hitems⟩
  | .stuck _ _, _, h => h.elim
theorem Reply.Runs.exists_items :
    {reply : Reply ProofState} → {post : List ProofState → Prop} →
    reply.Runs rules False post → ∃ items, post items
  | .rest _ _, _, h => Supply.Runs.exists_items h.2
  | .broken _ _ _, _, h => h.elim
end

mutual
theorem Supply.Yields.gives {ends : Prop} {Q Q' : ProofState → Prop} (kind : CursorKind) :
    {supply : Supply ProofState} → supply.Yields rules ends Q →
    (∀ t, (Cursor.mk kind supply).Gives rules t → Q' t) → supply.Yields rules ends Q'
  | .done _, h, _ => h
  | .item value _ _, h, himp => by
    refine ⟨himp value (.now rfl), fun source fixed => ?_⟩
    exact Reply.Yields.gives kind (h.2 source fixed) fun t ht => himp t (Cursor.gives_next fixed ht)
  | .stuck _ _, _, _ => trivial
theorem Reply.Yields.gives {ends : Prop} {Q Q' : ProofState → Prop} (kind : CursorKind) :
    {reply : Reply ProofState} → reply.Yields rules ends Q →
    (∀ t, (Cursor.mk kind reply.supply).Gives rules t → Q' t) → reply.Yields rules ends Q'
  | .rest _ _, h, himp => ⟨h.1, Supply.Yields.gives kind h.2 himp⟩
  | .broken _ _ _, h, _ => h
end

theorem Cursor.Gives.of_yields {c : Cursor} {s : ProofState} (gives : c.Gives rules s)
    {ends : Prop} {Q : ProofState → Prop} (yields : c.supply.Yields rules ends Q) : Q s := by
  induction gives with
  | @now c s current =>
    obtain ⟨kind, supply⟩ := c
    cases supply with
    | done gauge => cases current
    | stuck level gauge => cases current
    | item value gauge next =>
      obtain rfl : value = s := Except.ok.inj current
      exact yields.1
  | @later c c' s source source' outcome fixed moved _ ih =>
    obtain ⟨kind, supply⟩ := c
    cases supply with
    | done gauge =>
      obtain rfl : Cursor.mk kind (.done gauge) = c' := congrArg (fun r => r.1.2) moved
      exact ih yields
    | stuck level gauge =>
      obtain rfl : Cursor.mk kind (.stuck level gauge) = c' := congrArg (fun r => r.1.2) moved
      exact ih yields
    | item value gauge next =>
      have hnext := yields.2 source fixed
      rw [Cursor.run_advance_item] at moved
      revert hnext moved
      cases next source with
      | broken cause left source'' =>
        rintro moved ⟨-, level, gauge, rfl⟩
        obtain rfl : Cursor.mk kind (.stuck level gauge) = c' := congrArg (fun r => r.1.2) moved
        exact ih trivial
      | rest supply source'' =>
        intro moved hnext
        obtain rfl : Cursor.mk kind supply = c' := congrArg (fun r => r.1.2) moved
        exact ih hnext.2

/-! ### Successors -/

namespace ProofState.IsParent

variable {s next : ProofState}

theorem path (h : s.IsParent next) : next.path = s.path ++ [next.forefront] := by
  obtain ⟨_, hearlier⟩ := h
  simp only [ProofState.path, ProofState.stages, hearlier, List.reverse_cons, List.map_append]
  rfl

theorem depth (h : s.IsParent next) : next.depth = s.depth + 1 := by
  rw [ProofState.depth, h.2, List.length_cons]
  rfl

end ProofState.IsParent

namespace Kernel

/-- The second state is a successor of the first one: some cursor over its successors gives it. -/
def IsSuccessor (k : Kernel) (s next : ProofState) : Prop :=
  ∃ (source : Source) (cursor : Cursor) (source' : Source), source.rules = k.rules ∧
    (k.cursor s).runOn source = (.ok cursor, source') ∧ cursor.Gives k.rules next

/-- A number of successor steps lead from the first state to the second one. -/
inductive Chain (k : Kernel) (s : ProofState) : Nat → ProofState → Prop
  | refl : Chain k s 0 s
  | step {n : Nat} {t u : ProofState} (chain : Chain k s n t) (next : k.IsSuccessor t u) :
      Chain k s (n + 1) u

/-- The state starts a proof of the target. -/
def Begins (k : Kernel) (target : Statement) (s : ProofState) : Prop :=
  ∃ source source' : Source, (k.prove target).runOn source = (.ok s, source')

/-- A proof of some target leads to the state. -/
def Reaches (k : Kernel) (s : ProofState) : Prop :=
  ∃ (target : Statement) (root : ProofState) (n : Nat), k.Begins target root ∧ k.Chain root n s

variable {k : Kernel} {s t : ProofState}

theorem meets_cursor_of_fits (bounded : k.IsBounded) (fits : k.Fits s)
    (room : lenient ∨ k.HasRoom s.forefront) :
    (k.cursor s).Meets k.rules lenient fun c => c.kind = .rewriting ∧ c.supply.Runs k.rules lenient
      (Delivers k.options.randomised ProofState.forefront s.IsParent (k.expected s)) :=
  (meets_successors_of_fits bounded fits room).bind fun _ h => .pure ⟨rfl, h⟩

theorem meets_cursor (homed : k.IsHomed) (hctx : s.ctx = k.ctx)
    (room : lenient ∨ k.HasRoom s.forefront) :
    (k.cursor s).Meets k.rules lenient fun c => c.kind = .rewriting ∧ c.supply.Runs k.rules lenient
      (Delivers k.options.randomised ProofState.forefront s.IsParent (k.expected s)) :=
  meets_cursor_of_fits homed.bounded (homed.fits hctx) room

theorem lasts_cursor_of {ends : Prop} {Q : ProofState → Prop}
    (h : (k.successors s).Lasts k.rules fun supply => supply.Yields k.rules ends Q) :
    (k.cursor s).Lasts k.rules fun c => c.kind = .rewriting ∧ c.supply.Yields k.rules ends Q :=
  h.bind fun _ hsupply => .pure ⟨rfl, hsupply⟩

theorem IsSuccessor.of_lasts {ends : Prop} {Q : ProofState → Prop}
    (lasts : (k.successors s).Lasts k.rules fun supply => supply.Yields k.rules ends Q)
    (h : k.IsSuccessor s t) : Q t := by
  obtain ⟨source, cursor, source', hs, hrun, hgives⟩ := h
  exact hgives.of_yields (((lasts_cursor_of lasts).of_runOn hs hrun).2 cursor rfl).2

theorem IsSuccessor.expected (bounded : k.IsBounded) (h : k.IsSuccessor s t) :
    t.forefront ∈ k.expected s :=
  (h.of_lasts (lasts_successors bounded s)).1

/-- In every kernel, what comes up is one rewrite further. -/
theorem lasts_successors_isParent (k : Kernel) (s : ProofState) :
    (k.successors s).Lasts k.rules fun supply => supply.Yields k.rules True s.IsParent := by
  have hparent : (k.successors s).Lasts k.rules fun supply => supply.Yields k.rules True _ :=
    lasts_successors_of (Q := s.IsParent) fun x hx site _ number =>
      (x.lasts_byRule site number).mono fun supply hsupply =>
        hsupply.mono fun u hu => hx.state ▸ hu.2
  exact hparent.mono fun supply hsupply => hsupply.mono fun _ h => h.1

theorem IsSuccessor.isParent (h : k.IsSuccessor s t) : s.IsParent t :=
  h.of_lasts (k.lasts_successors_isParent s)

/-- What is expected is the forefront of a successor, if there is room. -/
theorem exists_successor (homed : k.IsHomed) (hctx : s.ctx = k.ctx) (room : k.HasRoom s.forefront)
    {e : Equation} (he : e ∈ k.expected s) : ∃ t, k.IsSuccessor s t ∧ t.forefront = e := by
  obtain ⟨cursor, source', hrun, _, _, hruns⟩ :=
    (meets_cursor homed hctx (.inr room)).exists_runOn (show k.source.rules = k.rules from rfl)
  obtain ⟨items, ⟨harranged, _⟩, hgives⟩ := (hruns.gives cursor.kind).exists_items
  obtain ⟨t, ht, rfl⟩ := List.mem_map.1 (harranged.perm.mem_iff.2 he)
  exact ⟨t, ⟨k.source, cursor, source', rfl, hrun, hgives t ht⟩, rfl⟩

/-- **One step** brings in no new variables. -/
theorem IsSuccessor.mem_vars (bounded : k.IsBounded) (next : k.IsSuccessor s t) {id : Nat}
    (hid : id ∈ t.forefront.vars) : id ∈ (s.forefront.above k.bound).vars :=
  ((mem_expansions bounded).1 (mem_expected.1 (next.expected bounded)).1).mem_vars hid

theorem HasRoom.successor (bounded : k.IsBounded) (room : k.HasRoom s.forefront)
    (next : k.IsSuccessor s t) : k.HasRoom t.forefront := by
  have habove : t.forefront.above k.bound = t.forefront :=
    Equation.above_eq_self fun id hid => Equation.le_of_mem_above (next.mem_vars bounded hid)
  refine ⟨fun id hid => ?_, room.narrow.mono fun id hid => ?_⟩
  · rw [habove] at hid
    exact room.words id (next.mem_vars bounded hid)
  · rw [habove, List.mem_append] at hid
    exact List.mem_append.2 (hid.imp_right (next.mem_vars bounded))

theorem HasRoom.chain (bounded : k.IsBounded) (room : k.HasRoom s.forefront) {n : Nat}
    (chain : k.Chain s n t) : k.HasRoom t.forefront := by
  induction chain with
  | refl => exact room
  | step _ next ih => exact ih.successor bounded next

theorem Begins.start {target : Statement} (h : k.Begins target s) :
    s.ctx = k.ctx ∧ s.forefront = target.equation ∧ s.path = [s.forefront] ∧ s.depth = 0 := by
  obtain ⟨source, source', hrun⟩ := h
  have hstart : (k.prove target).Lasts source.rules fun s =>
      s.ctx = k.ctx ∧ s.forefront = target.equation ∧ s.path = [s.forefront] ∧ s.depth = 0 := by
    refine (Draws.lasts_liftM _).bind fun _ _ => (Draws.lasts_liftM _).bind fun _ _ =>
      (Draws.lasts_liftM _).bind fun _ _ => ?_
    refine Draws.Meets.lasts ?_
    exact Draws.meets_numbered fun _ => ⟨rfl, rfl, rfl, rfl⟩
  exact (hstart.of_runOn rfl hrun).2 s rfl

theorem Chain.ctx (hctx : s.ctx = k.ctx) {n : Nat} (h : k.Chain s n t) : t.ctx = k.ctx := by
  induction h with
  | refl => exact hctx
  | step _ next ih => exact next.isParent.1.trans ih

theorem Chain.isSuccessor (h : k.Chain s 1 t) : k.IsSuccessor s t := by
  cases h with
  | step chain next =>
    cases chain
    exact next

theorem Chain.depth_eq {n : Nat} (h : k.Chain s n t) : t.depth = s.depth + n := by
  induction h with
  | refl => rfl
  | step _ next ih => rw [next.isParent.depth, ih, Nat.add_assoc]

theorem Reaches.ctx (h : k.Reaches s) : s.ctx = k.ctx := by
  obtain ⟨target, root, n, begins, chain⟩ := h
  exact chain.ctx begins.start.1

theorem Begins.reaches {target : Statement} (h : k.Begins target s) : k.Reaches s :=
  ⟨target, s, 0, h, .refl⟩

/-- A proof can be started of every statement of the kernel's context whose sides can be laid out
anew. -/
theorem exists_begins {target : Statement} (h : target.ctx.same k.ctx = true)
    (narrow : DenseMap.IsNarrow target.equation.vars) : ∃ s, k.Begins target s := by
  have hrequire : require (target.ctx.same k.ctx || k.ctx.isExtensionOf target.ctx)
      .foreignTarget = .ok () := require_eq_ok.2 (by rw [h, Bool.true_or])
  have hlhs := Term.exists_collect (narrow.mono fun id hid => Equation.mem_vars.2 (.inl hid))
  have hrhs := Term.exists_collect (narrow.mono fun id hid => Equation.mem_vars.2 (.inr hid))
  have hmeets : (k.prove target).Meets [] False fun _ => True :=
    (Draws.meets_liftM (.inr ⟨(), hrequire⟩)).bind fun _ _ =>
      (Draws.meets_liftM (.inr hlhs)).bind fun _ _ =>
      (Draws.meets_liftM (.inr hrhs)).bind fun _ _ =>
        Draws.meets_numbered fun _ => trivial
  obtain ⟨s, source, hrun, -⟩ := hmeets.exists_runOn (show ({} : Source).rules = [] from rfl)
  exact ⟨s, {}, source, hrun⟩

/-- An expansion of the target that is new is one step away. -/
theorem exists_first_step {target : Statement} {root : ProofState} (homed : k.IsHomed)
    (begins : k.Begins target root) (room : k.HasRoom target.equation) {e : Equation}
    (hmem : e ∈ k.expansions k.ctx target.equation) (hnew : target.equation.equivalent e = false) :
    ∃ s, k.Chain root 1 s ∧ s.forefront = e := by
  obtain ⟨hctx, hfront, hpath, _⟩ := begins.start
  have hexpected : e ∈ k.expected root := by
    refine mem_expected.2 ⟨hctx ▸ hfront ▸ hmem, fun _ => ?_⟩
    rw [hpath, hfront, Equation.repeats, List.any_cons, hnew]
    rfl
  obtain ⟨s, hnext, hs⟩ := exists_successor homed hctx (hfront ▸ room) hexpected
  exact ⟨s, .step .refl hnext, hs⟩

end Kernel

/-! ### A proof of one step -/

/-- Applying an involution four times changes nothing. -/
def Statement.fourfold : Statement :=
  .ofEquation .involution ⟨.app 0 [.app 0 [.app 0 [.app 0 [.var 0]]]], .var 0⟩

/-- So does applying it six times, though it takes one more step to prove this. -/
def Statement.sixfold : Statement :=
  .ofEquation .involution
    ⟨.app 0 [.app 0 [.app 0 [.app 0 [.app 0 [.app 0 [.var 0]]]]]], .var 0⟩

namespace Kernel

theorem equations_involution (options : KernelOptions) :
    (involution options).equations = [⟨.app 0 [.app 0 [.var 0]], .var 0⟩] := rfl

/-- There is room for what is near to itself: the axiom leaves nothing open. -/
theorem hasRoom_involution_iff (options : KernelOptions) {e : Equation} :
    (involution options).HasRoom e ↔
      (∀ id ∈ (e.above 1).vars, id < UInt64.size) ∧ DenseMap.IsNarrow (e.above 1).vars :=
  ⟨fun room => ⟨room.words, room.narrow_above⟩, fun h => ⟨h.1, h.2⟩⟩

theorem hasRoom_fourfold (options : KernelOptions) :
    (involution options).HasRoom Statement.fourfold.equation := by
  rw [hasRoom_involution_iff]
  decide +kernel

theorem hasRoom_sixfold (options : KernelOptions) :
    (involution options).HasRoom Statement.sixfold.equation := by
  rw [hasRoom_involution_iff]
  decide +kernel

/-- A rewrite with the axiom takes a twofold involution off the left side. -/
theorem mem_expansions_involution (options : KernelOptions) {e : Equation} {t r : Term}
    (twofold : e.above 1 = ⟨.app 0 [.app 0 [t]], r⟩) :
    ⟨t, r⟩ ∈ (involution options).expansions .involution e := by
  refine (mem_expansions (built_involution options).homed.bounded).2 ?_
  show (e.above 1).Rewrites _ [] _
  rw [twofold]
  let rule : Equation := ⟨.app 0 [.app 0 [.var 0]], .var 0⟩
  let site : Site := ⟨.lhs, [], .app 0 [.app 0 [t]]⟩
  have hsite : site ∈ (Equation.mk (.app 0 [.app 0 [t]]) r).sites := List.mem_cons_self
  have hvars : ∀ id ∈ rule.rhs.vars, id ∈ rule.lhs.vars := by decide
  have happlies : rule.Applies (Candidate.listed ⟨.app 0 [.app 0 [t]], r⟩ [])
      site.occurrence.term t fun _ => t :=
    ⟨rfl, fun id hid hout => absurd (hvars id hid) hout, rfl⟩
  exact .intro hsite (.inl List.mem_cons_self) happlies

theorem exists_chain_involution (options : KernelOptions) :
    ∃ root s, (involution options).Begins .fourfold root ∧ (involution options).Chain root 1 s ∧
      (involution options).isTrivial root.forefront = false ∧
      (involution options).isTrivial s.forefront = true := by
  have hbegins : ∃ root, (involution options).Begins .fourfold root := ⟨_, {}, _, rfl⟩
  obtain ⟨root, hbegins⟩ := hbegins
  have hmem := mem_expansions_involution (e := Statement.fourfold.equation)
    (t := .app 0 [.app 0 [.var 1]]) (r := .var 1) options (by decide +kernel)
  obtain ⟨s, hchain, hs⟩ := exists_first_step (built_involution options).homed hbegins
    (hasRoom_fourfold options) hmem (by decide +kernel)
  refine ⟨root, s, hbegins, hchain, ?_, ?_⟩
  · rw [hbegins.start.2.1]
    show Equation.isTrivialIn _ [.ofStatement .involution] = false
    decide +kernel
  · rw [hs]
    show Equation.isTrivialIn _ [.ofStatement .involution] = true
    decide +kernel

end Kernel

/-! ### A step that brings in a constant, and one for which there is no room -/

/-- An inverse is the product of anything with it, so of the constant with it. -/
def Statement.inverseTwice : Statement :=
  .ofEquation .leftBlind ⟨.app 1 [.app 1 [.var 0]], .app 1 [.app 0 [.const 2, .var 0]]⟩

/-- The last variable is so far from those of the axiom that no row has room for both. -/
def Statement.remote : Statement :=
  .ofEquation .leftBlind ⟨.app 1 [.var 18446744073709551615], .const 2⟩

namespace Kernel

theorem hasRoom_leftBlind_iff (options : KernelOptions) {e : Equation} :
    (leftBlind options).HasRoom e ↔ (∀ id ∈ (e.above 2).vars, id < UInt64.size) ∧
      DenseMap.IsNarrow ([0] ++ (e.above 2).vars) :=
  ⟨fun h => ⟨h.1, h.2⟩, fun h => ⟨h.1, h.2⟩⟩

theorem hasRoom_inverseTwice (options : KernelOptions) :
    (leftBlind options).HasRoom Statement.inverseTwice.equation :=
  (hasRoom_leftBlind_iff options).2 (by decide +kernel)

theorem hasRoom_leftBlind (options : KernelOptions) :
    (leftBlind options).HasRoom Statement.leftBlind.equation :=
  (hasRoom_leftBlind_iff options).2 (by decide +kernel)

/-- A rewrite with the axiom puts the product of a candidate and a term where the inverse of the
term was. -/
theorem mem_expansions_leftBlind (options : KernelOptions) {e : Equation} (working : Equation)
    (site : Site) (habove : e.above 2 = working) (hsite : site ∈ working.sites) {t : Term}
    (hterm : site.occurrence.term = .app 1 [t]) {c : Candidate}
    (hc : c ∈ Candidate.listed working [2]) :
    working.replaceAt site (.app 0 [c.term, t]) ∈
      (leftBlind options).expansions .leftBlind e := by
  let rule : Equation := ⟨.app 1 [.var 1], .app 0 [.var 0, .var 1]⟩
  refine (mem_expansions (built_leftBlind options).homed.bounded).2 ?_
  show (e.above 2).Rewrites [rule.transpose] [2] _
  rw [habove]
  have hopen : ∀ id ∈ rule.rhs.vars, id ∉ rule.lhs.vars → id = 0 := by decide
  have happlies : rule.Applies (Candidate.listed working [2]) site.occurrence.term
      (.app 0 [c.term, t]) fun id => if id = 0 then c.term else t := by
    refine ⟨hterm.symm, fun id hid hout => ⟨c, hc, ?_⟩, rfl⟩
    rw [hopen id hid hout]
    rfl
  exact .intro hsite (.inr List.mem_cons_self) happlies

/-- The variable that the axiom leaves open is replaced by the constant. -/
theorem exists_chain_leftBlind (options : KernelOptions) :
    ∃ root s, (leftBlind options).Begins .inverseTwice root ∧ (leftBlind options).Chain root 1 s ∧
      (leftBlind options).isTrivial root.forefront = false ∧
      (leftBlind options).isTrivial s.forefront = true := by
  have hbegins : ∃ root, (leftBlind options).Begins .inverseTwice root := ⟨_, {}, _, rfl⟩
  obtain ⟨root, hbegins⟩ := hbegins
  have hmem := mem_expansions_leftBlind options (e := Statement.inverseTwice.equation)
    ⟨.app 1 [.app 1 [.var 2]], .app 1 [.app 0 [.const 2, .var 2]]⟩ ⟨.lhs, [0], .app 1 [.var 2]⟩
    (c := .const 2) (by decide +kernel) (by decide +kernel) rfl (by decide +kernel)
  obtain ⟨s, hchain, hs⟩ := exists_first_step (built_leftBlind options).homed hbegins
    (hasRoom_inverseTwice options) hmem (by decide +kernel)
  refine ⟨root, s, hbegins, hchain, ?_, ?_⟩
  · rw [hbegins.start.2.1]
    show Equation.isTrivialIn _ [.ofStatement .leftBlind] = false
    decide +kernel
  · rw [hs]
    show Equation.isTrivialIn _ [.ofStatement .leftBlind] = true
    decide +kernel

theorem exists_begins_remote (options : KernelOptions) :
    ∃ root, (leftBlind options).Begins .remote root := ⟨_, {}, _, rfl⟩

/-- No cursor over the successors of a state at the remote statement is ever opened. -/
theorem lasts_cursor_remote {options : KernelOptions} {s : ProofState}
    (hctx : s.ctx = .leftBlind) (hfront : s.forefront = Statement.remote.equation) :
    ((leftBlind options).cursor s).Lasts (leftBlind options).rules fun _ => False := by
  refine Draws.Lasts.bind ?_ fun _ (h : False) => h.elim
  refine lasts_ofState.bind fun x ⟨hstate, hworking, hcands, _⟩ => ?_
  have hequation : x.working.equation = Statement.remote.equation := by
    rw [hworking, hfront]
    show Statement.remote.equation.above 2 = _
    decide +kernel
  have hcandidates : x.candidates ≠ [] := by
    rw [hcands, hequation]
    exact List.cons_ne_nil _ _
  have hrule : (Rule.ofStatement .leftBlind).sentence.rewrites x.state.ctx
      (.app 1 [.var 18446744073709551615]) =
        [⟨.leftBlind, .app 0 [.var 0, .var 18446744073709551615], {}, [0]⟩] := by
    rw [hstate, hctx]
    rfl
  let site : Site := ⟨.lhs, [], .app 1 [.var 18446744073709551615]⟩
  have hsites : x.working.equation.sites = site :: Statement.remote.equation.sites.tail := by
    rw [hequation]
    rfl
  refine (x.lasts_successors_false hsites (x.lasts_byRule_false rfl hrule
    (x.lasts_assignments_false hcandidates fun value l' hl' => ?_))).bind fun _ h => h.elim
  -- The side would have the first variable and the last one.
  obtain ⟨_, hcollect, -⟩ := bind_eq_ok.1 hl'
  rw [Line.equation_replaceAt, hequation] at hcollect
  cases hcollect

end Kernel

end Equational
