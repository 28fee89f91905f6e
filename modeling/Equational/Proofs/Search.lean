import Equational.Proofs.Plan
import Equational.Solver

/-!
# One search

The stack of a search holds the states on the way to the one whose successors are being
tried, each with the cursor over its own successors. What the search has seen so far is
this: of each state on the stack, every equation that can come next was searched through,
is on its way on the stack, or is still to come from the cursor (`Frame.Accounts`). When
the stack is empty, all that can be reached within the limit was searched through, and if
nothing was cut off then nothing lies at the limit or beyond it (`Kernel.Searched`).

One move keeps this up (`Task.ensures_step`), and so does any number of moves.
-/

namespace Equational

namespace Kernel

variable {k : Kernel} {cut : Bool} {n m : Nat} {s t : ProofState} {path : List Equation}
  {e : Equation}

/-! ### What was searched through -/

/-- What can come after a path that ends with the equation. -/
noncomputable def after (k : Kernel) (path : List Equation) (e : Equation) : List Equation :=
  if k.options.noRepeats then (k.expansions k.ctx e).filter fun next => !next.repeats path
  else k.expansions k.ctx e

theorem expected_eq_after (hctx : s.ctx = k.ctx) : k.expected s = k.after s.path s.forefront := by
  rw [expected, after, hctx]

/-- No trivial equation can be reached from the end of the path in so many steps, and unless this
was `cut` off, no equation at all is that far away. -/
def Searched (k : Kernel) (cut : Bool) : Nat → List Equation → Equation → Prop
  | 0, _, e => k.isTrivial e = false ∧ cut = true
  | n + 1, path, e =>
    k.isTrivial e = false ∧ ∀ next ∈ k.after path e, k.Searched cut n (path ++ [next]) next

theorem Searched.not_trivial (h : k.Searched cut n path e) : k.isTrivial e = false := by
  cases n with
  | zero => exact h.1
  | succ n => exact h.1

/-- Cutting off more says less. -/
theorem Searched.cutOff (h : k.Searched cut n path e) : k.Searched true n path e := by
  induction n generalizing path e with
  | zero => exact ⟨h.1, rfl⟩
  | succ n ih => exact ⟨h.1, fun next hnext => ih (h.2 next hnext)⟩

theorem Searched.step (bounded : k.IsBounded) (hctx : s.ctx = k.ctx)
    (h : k.Searched cut (n + 1) s.path s.forefront) (next : k.IsSuccessor s t) :
    k.Searched cut n t.path t.forefront := by
  have hmem := next.expected bounded
  rw [expected_eq_after hctx] at hmem
  rw [next.isParent.path]
  exact h.2 t.forefront hmem

/-- A chain within the limit leads to what was searched through. -/
theorem Searched.chain (bounded : k.IsBounded) (hctx : s.ctx = k.ctx)
    (h : k.Searched cut n s.path s.forefront) (chain : k.Chain s m t) (hm : m ≤ n) :
    k.Searched cut (n - m) t.path t.forefront := by
  induction chain with
  | refl => exact h
  | @step m t u chain next ih =>
    have hsearched := ih (Nat.le_of_succ_le hm)
    rw [show n - m = n - (m + 1) + 1 by omega] at hsearched
    exact hsearched.step bounded (chain.ctx hctx) next

/-- If nothing was cut off, every chain is within the limit. -/
theorem Searched.length_lt (bounded : k.IsBounded) (hctx : s.ctx = k.ctx)
    (h : k.Searched false n s.path s.forefront) (chain : k.Chain s m t) : m < n := by
  induction chain with
  | refl =>
    cases n with
    | zero => exact absurd h.2 Bool.false_ne_true
    | succ n => omega
  | @step m t u chain next ih =>
    have hsearched := h.chain bounded hctx (chain.step next) ih
    by_cases hlast : m + 1 = n
    · rw [hlast, Nat.sub_self] at hsearched
      exact absurd hsearched.2 Bool.false_ne_true
    · omega

end Kernel

/-! ### The stack -/

/-- No search for a proof of the equation meets a violation: the plan is total, and there is room
for the rewrites. -/
def Guidance.IsSafe (g : Guidance) (e : Equation) : Prop :=
  g.plan.IsTotal ∧ g.kernel.HasRoom e

/-- A state on the stack, reached from the root within the limit, and what is known about the
equations that can come next: each of them is the one `pending`, was searched through, or is
still to be given by the cursor. If this can fail, it has to be `lenient`. -/
structure Frame.Accounts (g : Guidance) (lenient : Prop) (root : ProofState) (limit : Nat)
    (cut : Bool) (pending : Option Equation) (f : Frame) : Prop where
  chain : g.kernel.Chain root f.state.depth f.state
  within : f.state.depth < limit
  not_trivial : g.kernel.isTrivial f.state.forefront = false
  each : f.cursor.supply.Each g.kernel.rules (g.kernel.IsSuccessor f.state)
  runs : f.cursor.supply.Runs g.kernel.rules lenient fun items =>
    ∀ next ∈ g.kernel.expected f.state, pending = some next ∨
      g.kernel.Searched cut (limit - f.state.depth - 1) (f.state.path ++ [next]) next ∨
      next ∈ items.map ProofState.forefront

/-- The frames below a state that is being searched through. The state is the root, or the one
pending in the frame next to it. -/
def Frame.AwaitAll (g : Guidance) (lenient : Prop) (root : ProofState) (limit : Nat) (cut : Bool) :
    ProofState → List Frame → Prop
  | s, [] => s = root
  | s, f :: outer => f.state.IsParent s ∧ f.Accounts g lenient root limit cut (some s.forefront) ∧
      AwaitAll g lenient root limit cut f.state outer

/-- What is known while a search is not done. -/
def Search.IsUnderWay (g : Guidance) (lenient : Prop) (x : Search) : Prop :=
  match x.stack with
  | [] => g.kernel.Searched x.cutOff x.limit x.root.path x.root.forefront
  | f :: outer => f.Accounts g lenient x.root x.limit x.cutOff none ∧
      Frame.AwaitAll g lenient x.root x.limit x.cutOff f.state outer

variable {lenient : Prop}

namespace Frame

variable {g : Guidance} {root s : ProofState} {limit : Nat} {cut : Bool} {pending : Option Equation}
  {f : Frame} {outer : List Frame}

theorem Accounts.cutOff (h : f.Accounts g lenient root limit cut pending) :
    f.Accounts g lenient root limit true pending :=
  { h with
    runs := h.runs.mono fun _ hitems next hnext =>
      (hitems next hnext).imp_right fun h => h.imp_left Kernel.Searched.cutOff }

theorem AwaitAll.cutOff (h : AwaitAll g lenient root limit cut s outer) :
    AwaitAll g lenient root limit true s outer := by
  induction outer generalizing s with
  | nil => exact h
  | cons f outer ih => exact ⟨h.1, h.2.1.cutOff, ih h.2.2⟩

/-- What was pending has been searched through. -/
theorem Accounts.settle {next : Equation} (h : f.Accounts g lenient root limit cut (some next))
    (searched : g.kernel.Searched cut (limit - f.state.depth - 1) (f.state.path ++ [next]) next) :
    f.Accounts g lenient root limit cut none :=
  { h with
    runs := h.runs.mono fun _ hitems other hother => by
      rcases hitems other hother with hpending | hrest
      · obtain rfl := Option.some.inj hpending
        exact .inr (.inl searched)
      · exact .inr hrest }

/-- A new cursor still gives everything. -/
theorem accounts_of_isOver {cursor : Cursor} (chain : g.kernel.Chain root s.depth s)
    (within : s.depth < limit) (not_trivial : g.kernel.isTrivial s.forefront = false)
    (hover : cursor.IsOver g.kernel lenient s) :
    Accounts g lenient root limit cut none ⟨s, cursor⟩ where
  chain := chain
  within := within
  not_trivial := not_trivial
  each := hover.1
  runs := hover.2.mono fun _ hperm _ hnext => .inr (.inr (hperm.mem_iff.2 hnext))

/-- When its cursor has come to the end, a state was searched through. -/
theorem Accounts.searched (hroot : root.ctx = g.kernel.ctx)
    (h : f.Accounts g lenient root limit cut none) (ended : f.cursor.isValid = false) :
    g.kernel.Searched cut (limit - f.state.depth) f.state.path f.state.forefront := by
  have hctx := h.chain.ctx hroot
  have hwithin := h.within
  rw [show limit - f.state.depth = limit - f.state.depth - 1 + 1 by omega]
  refine ⟨h.not_trivial, fun next hnext => ?_⟩
  rw [← Kernel.expected_eq_after hctx] at hnext
  have hruns := h.runs
  revert hruns ended
  rw [Cursor.isValid]
  cases f.cursor.supply with
  | done gauge =>
    intro _ hruns
    rcases hruns next hnext with hpending | hsearched | hitem
    · cases hpending
    · exact hsearched
    · simp at hitem
  | item value gauge next' => exact fun hended => by simp [Supply.isDone] at hended
  | stuck level gauge => exact fun hended => by simp [Supply.isDone] at hended

/-- When a state was searched through, the search goes on in the frame below it. -/
theorem AwaitAll.resume {x : Search} (h : AwaitAll g lenient x.root x.limit x.cutOff s outer)
    (searched : g.kernel.Searched x.cutOff (x.limit - s.depth) s.path s.forefront)
    (hroot : x.root.depth = 0) : { x with stack := outer }.IsUnderWay g lenient := by
  cases outer with
  | nil =>
    obtain rfl : s = x.root := h
    rwa [hroot] at searched
  | cons g outer =>
    obtain ⟨hparent, haccounts, hawait⟩ := h
    rw [hparent.depth, hparent.path, ← Nat.sub_sub] at searched
    exact ⟨haccounts.settle searched, hawait⟩

end Frame

/-! ### Verdicts -/

/-- The verdict of a search for a proof of the target is right. A proof is a chain of successors
from the target within the limit. Without a proof, no chain up to the greatest depth reaches a
trivial forefront, and no chain at all does if the search ended with nothing cut off. -/
structure Search.Answers (k : Kernel) (target : Statement) (maxDepth : Nat) (x : Search) :
    Prop where
  proven : x.verdict = .proven → ∃ root proof n, k.Begins target root ∧ x.proof = some proof ∧
    k.Chain root n proof ∧ n ≤ x.limit ∧ k.isTrivial proof.forefront = true
  noProof : x.verdict = .noProof → ∀ root s n, k.Begins target root → k.Chain root n s →
    n ≤ maxDepth ∨ x.cutOff = false → k.isTrivial s.forefront = false

/-- What holds of a search after any number of moves. -/
structure Search.IsSound (g : Guidance) (lenient : Prop) (target : Statement) (x : Search) :
    Prop where
  begins : g.kernel.Begins target x.root
  positive : 0 < x.limit
  answers : x.Answers g.kernel target g.maxDepth
  underWay : x.verdict = .unfinished → x.IsUnderWay g lenient

namespace Search

variable {g : Guidance} {target : Statement} {x : Search}

theorem isSound_of_isUnderWay (begins : g.kernel.Begins target x.root) (positive : 0 < x.limit)
    (unfinished : x.verdict = .unfinished) (underWay : x.IsUnderWay g lenient) :
    x.IsSound g lenient target where
  begins := begins
  positive := positive
  answers := ⟨fun h => by simp [unfinished] at h, fun h => by simp [unfinished] at h⟩
  underWay := fun _ => underWay

theorem isSound_prove {s : ProofState} {n : Nat} (begins : g.kernel.Begins target x.root)
    (positive : 0 < x.limit) (chain : g.kernel.Chain x.root n s) (within : n ≤ x.limit)
    (trivial : g.kernel.isTrivial s.forefront = true) : (x.prove s).IsSound g lenient target where
  begins := begins
  positive := positive
  answers := ⟨fun _ => ⟨x.root, s, n, begins, rfl, chain, within, trivial⟩, nofun⟩
  underWay := nofun

/-- Where everything within the limit was searched through and the limit is not raised, there is no
proof. -/
theorem isSound_fail (bounded : g.kernel.IsBounded) (begins : g.kernel.Begins target x.root)
    (positive : 0 < x.limit)
    (searched : g.kernel.Searched x.cutOff x.limit x.root.path x.root.forefront)
    (last : (x.cutOff && decide (x.limit < g.maxDepth)) = false) :
    x.fail.IsSound g lenient target where
  begins := begins
  positive := positive
  underWay := nofun
  answers := by
    refine ⟨nofun, fun _ root s n hbegins hchain hreach => ?_⟩
    obtain ⟨hctx, hfront, hpath, _⟩ := hbegins.start
    obtain ⟨_, hfront', hpath', _⟩ := begins.start
    rw [hpath', hfront', ← hfront, ← hpath] at searched
    have hreach : n ≤ g.maxDepth ∨ x.cutOff = false := hreach
    have hn : n ≤ x.limit := by
      cases hcut : x.cutOff with
      | false => exact Nat.le_of_lt ((hcut ▸ searched).length_lt bounded hctx hchain)
      | true =>
        simp only [hcut, Bool.true_and, decide_eq_false_iff_not] at last
        rcases hreach with hreach | hreach
        · omega
        · simp [hcut] at hreach
    exact (searched.chain bounded hctx hchain hn).not_trivial

end Search

/-! ### Moves -/

namespace Task

variable {α β : Type}

/-- Whatever the counters are, the computation leaves a search that satisfies `post`. -/
def Ensures (g : Guidance) (lenient : Prop) (m : Changes Task α) (x : Search)
    (post : α → Search → Prop) : Prop :=
  ∀ stats, m.Meets g.kernel.rules lenient ⟨x, stats⟩ fun a t => post a t.search

variable {g : Guidance} {x : Search} {m : Changes Task α}

theorem Ensures.bind {f : α → Changes Task β} {mid : α → Search → Prop} {post : β → Search → Prop}
    (first : Ensures g lenient m x mid) (second : ∀ a y, mid a y → Ensures g lenient (f a) y post) :
    Ensures g lenient (m >>= f) x post :=
  fun stats => (first stats).bind fun a t h => second a t.search h t.stats

theorem Ensures.mono {post post' : α → Search → Prop} (h : Ensures g lenient m x post)
    (imp : ∀ a y, post a y → post' a y) : Ensures g lenient m x post' :=
  fun stats => (h stats).mono fun a t => imp a t.search

theorem ensures_count (c : Counter) : Ensures g lenient (count c) x fun _ y => x = y :=
  fun _ => (Changes.meets_modify _).mono fun _ _ h => h ▸ rfl

theorem ensures_update (f : Search → Search) : Ensures g lenient (update f) x fun _ y => y = f x :=
  fun _ => (Changes.meets_modify _).mono fun _ _ h => h ▸ rfl

theorem ensures_get : Ensures g lenient get x fun t y => t.search = x ∧ x = y :=
  fun _ => Changes.meets_get.mono fun _ _ h => ⟨h.1 ▸ rfl, h.2 ▸ rfl⟩

theorem ensures_isTrivial (e : Equation) :
    Ensures g lenient (isTrivial e) x fun answer y => answer = g.kernel.isTrivial e ∧ x = y := by
  intro stats
  refine (Changes.meets_draw Draws.meets_rules).bind ?_
  rintro rules t ⟨rfl, rfl⟩
  exact .pure ⟨rfl, rfl⟩

theorem ensures_enter (homed : g.kernel.IsHomed) {s : ProofState}
    (safe : lenient ∨ g.IsSafe s.forefront) (hctx : s.ctx = g.kernel.ctx) :
    Ensures g lenient (enter g s) x fun _ y =>
      ∃ cursor : Cursor, cursor.IsOver g.kernel lenient s ∧
        y = { x with stack := ⟨s, cursor⟩ :: x.stack } := by
  refine (ensures_count .statesOpened).bind ?_
  rintro _ _ rfl
  intro stats
  refine (Changes.meets_draw (Plan.meets_successors safe homed hctx)).bind ?_
  rintro cursor t ⟨hover, rfl⟩
  exact (ensures_update _ stats).mono fun _ t h => ⟨cursor, hover, h⟩

theorem ensures_proveOr {s : ProofState} {otherwise : Changes Task Unit}
    {post : Unit → Search → Prop}
    (proved : g.kernel.isTrivial s.forefront = true → post () (x.prove s))
    (other : g.kernel.isTrivial s.forefront = false → Ensures g lenient otherwise x post) :
    Ensures g lenient (proveOr s otherwise) x post := by
  refine (ensures_isTrivial s.forefront).bind ?_
  rintro _ _ ⟨rfl, rfl⟩
  cases htrivial : g.kernel.isTrivial s.forefront with
  | true =>
    refine (ensures_count .targetsProven).bind ?_
    rintro _ _ rfl
    exact (ensures_update _).mono fun _ _ h => h ▸ proved htrivial
  | false => exact other htrivial

theorem runOn_takeChild (state : ProofState) (kind : CursorKind) (value : ProofState)
    (gauge : Gauge) (next : Source → Reply ProofState) (outer : List Frame) (stats : Statistics)
    (source : Source) :
    ((takeChild ⟨state, ⟨kind, .item value gauge next⟩⟩ outer).runOn ⟨x, stats⟩).run source =
      match next source with
      | .rest supply source =>
        ((.ok value, ⟨{ x with stack := ⟨state, ⟨kind, supply⟩⟩ :: outer }, stats⟩), source)
      | .broken cause left source =>
        ((.error cause, ⟨{ x with stack := ⟨state, ⟨kind, left⟩⟩ :: outer }, stats⟩), source) := by
  have hget : (Cursor.mk kind (.item value gauge next)).get = .ok value := rfl
  rw [takeChild, hget, Changes.runOn_bind, Changes.runOn_liftM]
  dsimp only
  rw [Changes.runOn_attempt_bind, Cursor.run_advance_item]
  cases next source with
  | rest supply source' => rfl
  | broken cause left source' => rfl

/-- The state that the cursor stands on is taken, and is pending from then on. -/
theorem ensures_takeChild {f : Frame} {outer : List Frame} {limit : Nat} {cut : Bool}
    {root : ProofState} (accounts : f.Accounts g lenient root limit cut none)
    (valid : f.cursor.isValid = true) :
    Ensures g lenient (takeChild f outer) x fun child y => g.kernel.IsSuccessor f.state child ∧
      ∃ cursor, y = { x with stack := { f with cursor } :: outer } ∧
        Frame.Accounts g lenient root limit cut (some child.forefront) { f with cursor } := by
  intro stats source hs
  obtain ⟨state, kind, supply⟩ := f
  cases supply with
  | done gauge => exact absurd valid Bool.false_ne_true
  | stuck level gauge => exact accounts.runs
  | item value gauge next =>
    have heach := accounts.each
    have hruns := accounts.runs source hs
    have hrest := heach.2 source hs
    rw [runOn_takeChild]
    revert hruns hrest
    cases next source with
    | broken cause left source' => exact fun hruns _ => hruns
    | rest supply source' =>
      intro hruns hrest
      refine ⟨hruns.1, heach.1, ⟨kind, supply⟩, rfl, ?_⟩
      refine ⟨accounts.chain, accounts.within, accounts.not_trivial, hrest.2, ?_⟩
      refine hruns.2.mono fun items hitems other hother => ?_
      rcases hitems other hother with hpending | hsearched | hitem
      · cases hpending
      · exact .inr (.inl hsearched)
      · rw [List.map_cons, List.mem_cons] at hitem
        rcases hitem with rfl | hitem
        · exact .inl rfl
        · exact .inr (.inr hitem)

variable {target : Statement}

/-- When everything was seen, the search starts again with a higher limit or ends. -/
theorem ensures_finishPass (homed : g.kernel.IsHomed) (safe : lenient ∨ g.IsSafe target.equation)
    (sound : x.IsSound g lenient target)
    (unfinished : x.verdict = .unfinished) (hstack : x.stack = []) :
    Ensures g lenient (finishPass g) x fun _ y => y.IsSound g lenient target := by
  have hunder := sound.underWay unfinished
  rw [Search.IsUnderWay, hstack] at hunder
  refine ensures_get.bind ?_
  rintro t _ ⟨rfl, rfl⟩
  dsimp only
  split
  next =>
    refine (ensures_update _).bind ?_
    rintro _ _ rfl
    refine (ensures_count .depthIncreases).bind ?_
    rintro _ _ rfl
    obtain ⟨hctx, hfront, _, hdepth⟩ := sound.begins.start
    refine (ensures_enter homed (hfront ▸ safe) hctx).mono ?_
    rintro _ _ ⟨cursor, hover, rfl⟩
    refine Search.isSound_of_isUnderWay sound.begins (Nat.succ_pos _) unfinished ?_
    simp only [Search.IsUnderWay, hstack]
    refine ⟨Frame.accounts_of_isOver ?_ ?_ hunder.not_trivial hover, rfl⟩
    · rw [hdepth]
      exact .refl
    · rw [hdepth]
      exact Nat.succ_pos _
  next hlast =>
    refine (ensures_update _).bind ?_
    rintro _ _ rfl
    refine (ensures_count .targetsFailed).mono ?_
    rintro _ _ rfl
    refine Search.isSound_fail homed.bounded sound.begins sound.positive hunder ?_
    simpa using hlast

/-- A successor that was taken ends the search, is searched through next, or is cut off. -/
theorem ensures_expand (homed : g.kernel.IsHomed) (safe : lenient ∨ g.IsSafe target.equation)
    (begins : g.kernel.Begins target x.root)
    (unfinished : x.verdict = .unfinished) {f : Frame} {outer : List Frame}
    (hstack : x.stack = f :: outer) {child : ProofState} (next : g.kernel.IsSuccessor f.state child)
    (accounts : f.Accounts g lenient x.root x.limit x.cutOff (some child.forefront))
    (await : Frame.AwaitAll g lenient x.root x.limit x.cutOff f.state outer) :
    Ensures g lenient (expand g child) x fun _ y => y.IsSound g lenient target := by
  obtain ⟨hrootctx, hrootfront, -⟩ := begins.start
  have hctx := accounts.chain.ctx hrootctx
  have hparent := next.isParent
  have hchain : g.kernel.Chain x.root child.depth child := by
    rw [hparent.depth]
    exact accounts.chain.step next
  have hsafe : lenient ∨ g.IsSafe child.forefront := by
    rw [← hrootfront] at safe
    exact safe.imp_right fun safe => ⟨safe.1, safe.2.chain homed.bounded hchain⟩
  have hwithin := accounts.within
  have hpositive : 0 < x.limit := by omega
  refine (ensures_count .expansions).bind ?_
  rintro _ _ rfl
  refine (ensures_update _).bind ?_
  rintro _ _ rfl
  refine ensures_proveOr (fun htrivial => ?_) fun htrivial => ?_
  · have hdepth : child.depth ≤ x.limit := hparent.depth ▸ hwithin
    exact Search.isSound_prove begins hpositive hchain hdepth htrivial
  · refine ensures_get.bind ?_
    rintro t _ ⟨ht, rfl⟩
    rw [ht]
    split
    next hbelow =>
      refine (ensures_enter homed hsafe (hparent.1.trans hctx)).mono ?_
      rintro _ _ ⟨cursor, hover, rfl⟩
      refine Search.isSound_of_isUnderWay begins hpositive unfinished ?_
      simp only [Search.IsUnderWay, hstack]
      exact ⟨Frame.accounts_of_isOver hchain hbelow htrivial hover, hparent, accounts, await⟩
    next hlimit =>
      refine (ensures_update _).mono ?_
      rintro _ _ rfl
      refine Search.isSound_of_isUnderWay begins hpositive unfinished ?_
      simp only [Search.IsUnderWay, hstack]
      -- The child lies at the limit, so that there is nothing left to be searched through.
      have hnone : x.limit - f.state.depth - 1 = 0 := by
        have hdepth := hparent.depth
        dsimp only at hlimit
        omega
      refine ⟨accounts.cutOff.settle ?_, await.cutOff⟩
      rw [hnone]
      exact ⟨htrivial, rfl⟩

/-- **One move** keeps a search sound. -/
theorem ensures_step (homed : g.kernel.IsHomed) (safe : lenient ∨ g.IsSafe target.equation)
    (sound : x.IsSound g lenient target)
    (unfinished : x.verdict = .unfinished) :
    Ensures g lenient (step g) x fun _ y => y.IsSound g lenient target := by
  have hunder := sound.underWay unfinished
  obtain ⟨hctx, _, _, hdepth⟩ := sound.begins.start
  refine ensures_get.bind ?_
  rintro t _ ⟨rfl, rfl⟩
  cases hstack : t.search.stack with
  | nil => exact ensures_finishPass homed safe sound unfinished hstack
  | cons f outer =>
    rw [Search.IsUnderWay, hstack] at hunder
    obtain ⟨haccounts, hawait⟩ := hunder
    dsimp only
    split
    next hvalid =>
      refine (ensures_takeChild haccounts hvalid).bind ?_
      rintro child _ ⟨hnext, cursor, rfl, hpending⟩
      exact ensures_expand (x := { t.search with stack := { f with cursor } :: outer }) homed
        safe sound.begins unfinished rfl hnext hpending hawait
    next hended =>
      refine (ensures_update _).mono ?_
      rintro _ _ rfl
      have hsearched := haccounts.searched hctx (by simpa using hended)
      exact Search.isSound_of_isUnderWay sound.begins sound.positive unfinished
        (hawait.resume hsearched hdepth)

theorem ensures_steps (homed : g.kernel.IsHomed) (safe : lenient ∨ g.IsSafe target.equation)
    (count : Nat) (sound : x.IsSound g lenient target) :
    Ensures g lenient (steps g count) x fun _ y => y.IsSound g lenient target := by
  induction count generalizing x with
  | zero => exact fun stats => .pure sound
  | succ count ih =>
    refine ensures_get.bind ?_
    rintro t _ ⟨rfl, rfl⟩
    split
    next => exact fun stats => .pure sound
    next hgoing =>
      have hunfinished : t.search.verdict = .unfinished := by simpa [Search.isDone] using hgoing
      exact (ensures_step homed safe sound hunfinished).bind fun _ _ hsound => ih hsound

theorem ensures_start (homed : g.kernel.IsHomed) (safe : lenient ∨ g.IsSafe target.equation)
    {root : ProofState} (begins : g.kernel.Begins target root) {limit : Nat}
    (positive : 0 < limit) :
    Ensures g lenient (start g) { root, limit } fun _ y => y.IsSound g lenient target := by
  obtain ⟨hctx, hfront, _, hdepth⟩ := begins.start
  refine ensures_get.bind ?_
  rintro t _ ⟨ht, rfl⟩
  rw [ht]
  refine ensures_proveOr (fun htrivial => ?_) fun htrivial => ?_
  · exact Search.isSound_prove begins positive .refl (Nat.zero_le _) htrivial
  · refine (ensures_enter homed (hfront ▸ safe) hctx).mono ?_
    rintro _ _ ⟨cursor, hover, rfl⟩
    refine Search.isSound_of_isUnderWay begins positive rfl ?_
    refine ⟨Frame.accounts_of_isOver ?_ ?_ htrivial hover, rfl⟩
    · rw [hdepth]
      exact .refl
    · rw [hdepth]
      exact positive

end Task

end Equational
