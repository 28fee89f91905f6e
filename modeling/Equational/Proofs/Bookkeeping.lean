import Equational.Proofs.IdMap
import Equational.Proofs.Moves
import Mathlib.Algebra.GroupWithZero.Nat

/-!
# The books of a search

A search keeps its path, its limit and its verdict, and what it does is counted. These are written
at different places, and a violation can end a call between any two of them. All the same they agree
at any time, in every kernel and for every plan: each move that `Search.Moves` lists, whether it
succeeds or not, keeps a search in order (`Search.IsKept.moves`) and adds to the account of the
search what it counts (`Search.Moves.account`).
-/

namespace Equational

/-! ### Counters -/

theorem Counter.index_inj {c c' : Counter} : c.index = c'.index ↔ c = c' := by
  constructor
  · cases c <;> cases c' <;> simp [index]
  · exact congrArg index

namespace Statistics

theorem get_add (s : Statistics) (c c' : Counter) (amount : Nat) :
    (s.add c amount).get c' = s.get c' + if c' = c then amount else 0 := by
  rw [add, get, set, IdMap.get?_insert]
  by_cases h : c' = c
  · subst h
    simp
  · simp [get, Counter.index_inj, h]

theorem get_count (s : Statistics) (events : List Counter) (c : Counter) :
    (s.count events).get c = s.get c + events.count c := by
  induction events generalizing s with
  | nil => rfl
  | cons event events ih =>
    rw [count, List.foldl_cons, ← count, ih, get_add, List.count_cons]
    simp only [beq_iff_eq, eq_comm (a := event)]
    omega

end Statistics

/-! ### Frames -/

theorem Cursor.MovesTo.lasts {rules : List Rule} {outcome : Checked Unit} {c c' : Cursor}
    {Q : ProofState → Prop} (moved : c.MovesTo rules outcome c') (lasts : c.supply.Lasts rules Q) :
    c'.supply.Lasts rules Q := by
  obtain ⟨source, source', fixed, run⟩ := moved
  exact lasts_of_advance fixed run lasts

theorem Guidance.Opened.lasts {g : Guidance} {s : ProofState} {c : Cursor} (opened : g.Opened s c) :
    c.supply.Lasts g.kernel.rules (g.kernel.IsSuccessor s) := by
  obtain ⟨source, source', fixed, run⟩ := opened
  exact ((g.plan.lasts_successors g.kernel s).of_runOn fixed run).2 c rfl

namespace Frame

/-- The frames of a stack lead from the root to the innermost state, one successor after the other,
and each cursor is over the successors of its state. -/
inductive Stacked (k : Kernel) (root : ProofState) : List Frame → Prop
  | nil : Stacked k root []
  | root {cursor : Cursor} (lasts : cursor.supply.Lasts k.rules (k.IsSuccessor root)) :
      Stacked k root [⟨root, cursor⟩]
  | push {f f' : Frame} {outer : List Frame} (lower : Stacked k root (f :: outer))
      (next : k.IsSuccessor f.state f'.state)
      (lasts : f'.cursor.supply.Lasts k.rules (k.IsSuccessor f'.state)) :
      Stacked k root (f' :: f :: outer)

namespace Stacked

variable {k : Kernel} {root : ProofState} {stack outer : List Frame} {f f' : Frame} {i : Nat}

theorem lasts (h : Stacked k root (f :: outer)) :
    f.cursor.supply.Lasts k.rules (k.IsSuccessor f.state) := by
  cases h with
  | root lasts => exact lasts
  | push _ _ lasts => exact lasts

theorem tail (h : Stacked k root (f :: outer)) : Stacked k root outer := by
  cases h with
  | root _ => exact .nil
  | push lower _ _ => exact lower

/-- Another cursor over the successors of the innermost state will do. -/
theorem turn (h : Stacked k root (f :: outer)) {cursor : Cursor}
    (lasts : cursor.supply.Lasts k.rules (k.IsSuccessor f.state)) :
    Stacked k root ({ f with cursor } :: outer) := by
  cases h with
  | root _ => exact .root lasts
  | push lower next _ => exact .push lower next lasts

theorem depth_top (start : root.depth = 0) (h : Stacked k root (f :: outer)) :
    f.state.depth = outer.length := by
  induction outer generalizing f with
  | nil =>
    cases h with
    | root _ => exact start
  | cons f' outer ih =>
    cases h with
    | push lower next _ => rw [next.isParent.depth, ih lower, List.length_cons]

theorem root_eq (h : Stacked k root stack) (hf : stack.reverse[0]? = some f) : f.state = root := by
  induction h with
  | nil => simp at hf
  | root _ =>
    obtain rfl := Option.some.inj hf
    rfl
  | push _ _ _ ih =>
    rw [List.reverse_cons, List.getElem?_append_left (by simp)] at hf
    exact ih hf

theorem depth_eq (start : root.depth = 0) (h : Stacked k root stack)
    (hf : stack.reverse[i]? = some f) : f.state.depth = i := by
  induction stack with
  | nil => simp at hf
  | cons top outer ih =>
    rw [List.reverse_cons] at hf
    by_cases hi : i < outer.length
    · rw [List.getElem?_append_left (by simpa using hi)] at hf
      exact ih h.tail hf
    · -- the innermost frame is the last one
      have hlast : i = outer.length := by
        have hlt := (List.getElem?_eq_some_iff.1 hf).1
        simp only [List.length_append, List.length_reverse, List.length_singleton] at hlt
        omega
      subst hlast
      rw [List.getElem?_append_right (by simp)] at hf
      obtain rfl : top = f := by simpa using hf
      exact h.depth_top start

theorem isSuccessor (h : Stacked k root stack) (hf : stack.reverse[i]? = some f)
    (hf' : stack.reverse[i + 1]? = some f') : k.IsSuccessor f.state f'.state := by
  induction h with
  | nil => simp at hf
  | root _ => simp at hf'
  | @push top inner outer _ next _ ih =>
    rw [List.reverse_cons] at hf hf'
    have hlt := (List.getElem?_eq_some_iff.1 hf').1
    simp only [List.length_append, List.length_reverse, List.length_cons, List.length_nil] at hlt
    rw [List.getElem?_append_left (by simp; omega)] at hf
    by_cases hi : i < outer.length
    · rw [List.getElem?_append_left (by simpa using hi)] at hf'
      exact ih hf hf'
    · obtain rfl : i = outer.length := by omega
      rw [List.getElem?_append_right (by simp)] at hf'
      obtain rfl : inner = f' := by simpa using hf'
      rw [List.reverse_cons, List.getElem?_append_right (by simp)] at hf
      obtain rfl : top = f := by simpa using hf
      exact next

end Stacked

end Frame

/-! ### Searches -/

namespace Search

/-- What is known at any time of a search for a proof of the target that may go from one depth to
the other. -/
structure IsKept (k : Kernel) (maxDepth startingDepth : Nat) (target : Statement) (x : Search) :
    Prop where
  begins : k.Begins target x.root
  least : startingDepth ≤ x.limit
  most : x.limit ≤ maxDepth
  stacked : Frame.Stacked k x.root x.stack
  within : x.stack.length ≤ x.limit
  counted : 1 ≤ x.expansions
  proven : x.verdict = .proven ↔ x.proof.isSome = true
  ended : x.isDone = true → x.stack = []

variable {g : Guidance} {startingDepth : Nat} {target : Statement} {x y : Search}
  {child : ProofState} {ok : Bool} {events : List Counter}

/-- While a search goes on, any stack from its root will do that is not too long. -/
theorem IsKept.restack (h : x.IsKept g.kernel g.maxDepth startingDepth target)
    (going : x.isDone = false) {stack : List Frame} (stacked : Frame.Stacked g.kernel x.root stack)
    (within : stack.length ≤ x.limit) :
    ({ x with stack } : Search).IsKept g.kernel g.maxDepth startingDepth target :=
  { h with
    stacked
    within
    ended := fun done => absurd (going.symm.trans done) Bool.false_ne_true }

theorem IsKept.turn (h : x.IsKept g.kernel g.maxDepth startingDepth target)
    (going : x.isDone = false) {f : Frame} {outer : List Frame} {cursor : Cursor}
    {outcome : Checked Unit} (top : x.stack = f :: outer)
    (moved : f.cursor.MovesTo g.kernel.rules outcome cursor) :
    ({ x with stack := { f with cursor } :: outer } : Search).IsKept g.kernel g.maxDepth
      startingDepth
      target := by
  have hstacked := h.stacked
  have hwithin := h.within
  rw [top] at hstacked hwithin
  exact h.restack going (hstacked.turn (moved.lasts hstacked.lasts)) hwithin

theorem IsKept.of_takes (h : x.IsKept g.kernel g.maxDepth startingDepth target)
    (going : x.isDone = false) (takes : x.Takes g child y) :
    y.IsKept g.kernel g.maxDepth startingDepth target ∧ y.limit = x.limit ∧ y.isDone = false ∧
      child.depth = y.stack.length ∧
      ∃ f outer, y.stack = f :: outer ∧ g.kernel.IsSuccessor f.state child := by
  rcases takes with @⟨f, outer, cursor, top, current, moved⟩
  have hstacked := h.stacked
  rw [top] at hstacked
  have hnext := Cursor.of_get_of_each current hstacked.lasts.each
  refine ⟨?_, rfl, going, ?_, _, _, rfl, hnext⟩
  · exact { h.turn going top moved with
      counted := Nat.le_add_left 1 x.expansions }
  · rw [hnext.isParent.depth, hstacked.depth_top h.begins.start.2.2.2, List.length_cons]

theorem IsKept.prove (h : x.IsKept g.kernel g.maxDepth startingDepth target) (s : ProofState) :
    (x.prove s).IsKept g.kernel g.maxDepth startingDepth target :=
  { h with
    stacked := .nil
    within := Nat.zero_le x.limit
    proven := by simp [Search.prove]
    ended := fun _ => rfl }

theorem IsKept.raise (h : x.IsKept g.kernel g.maxDepth startingDepth target)
    (below : x.limit < g.maxDepth) :
    ({ x with limit := x.limit + 1, cutOff := false } : Search).IsKept g.kernel g.maxDepth
      startingDepth target :=
  { h with
    least := Nat.le_succ_of_le h.least
    most := below
    within := Nat.le_succ_of_le h.within }

/-- **Each move keeps a search in order**, also if it fails. -/
theorem IsKept.moves (h : x.IsKept g.kernel g.maxDepth startingDepth target)
    (going : x.isDone = false) (moves : x.Moves g ok events y) :
    y.IsKept g.kernel g.maxDepth startingDepth target := by
  cases moves with
  | fail empty last =>
    have hnone := h.proven
    rw [isDone_eq_false.1 going] at hnone
    exact { h with
      proven := by simpa [Search.fail] using hnone
      ended := fun _ => empty }
  | raise empty cut below opened =>
    exact (h.raise below).restack going (.root opened.lasts) (Nat.le_add_left 1 x.limit)
  | leave top ended =>
    have hstacked := h.stacked
    have hwithin := h.within
    rw [top] at hstacked hwithin
    exact h.restack going hstacked.tail (Nat.le_of_succ_le hwithin)
  | @prove child y takes trivial => exact (h.of_takes going takes).1.prove child
  | enter takes notTrivial below opened =>
    obtain ⟨hy, hlimit, hgoing, hdepth, f, outer, hstack, hnext⟩ := h.of_takes going takes
    have hstacked := hy.stacked
    rw [hdepth, ← hlimit] at below
    refine hy.restack hgoing ?_ below
    rw [hstack] at hstacked ⊢
    exact .push hstacked hnext opened.lasts
  | cut takes notTrivial beyond => exact { (h.of_takes going takes).1 with }
  | raiseOnly empty cut below => exact h.raise below
  | takeOnly takes notTrivial below => exact (h.of_takes going takes).1
  | stall top valid moved => exact h.turn going top moved

/-- States that are found and limits that are raised are counted. -/
theorem Moves.fields (moves : x.Moves g ok events y) :
    y.expansions = x.expansions + events.count .expansions ∧
      y.limit = x.limit + events.count .depthIncreases := by
  cases moves with
  | prove takes _ => cases takes; exact ⟨rfl, rfl⟩
  | enter takes _ _ _ => cases takes; exact ⟨rfl, rfl⟩
  | cut takes _ _ => cases takes; exact ⟨rfl, rfl⟩
  | takeOnly takes _ _ => cases takes; exact ⟨rfl, rfl⟩
  | _ => exact ⟨rfl, rfl⟩

/-- A move that ends the search counts it as proven or failed, and other moves do not. -/
theorem Moves.verdict_cases (moves : x.Moves g ok events y) :
    y.verdict = .proven ∧ events = [.expansions, .targetsProven] ∨
      y.verdict = .noProof ∧ events = [.targetsFailed] ∨
      y.verdict = x.verdict ∧ .targetsProven ∉ events ∧ .targetsFailed ∉ events := by
  cases moves with
  | fail _ _ => exact .inr (.inl ⟨rfl, rfl⟩)
  | prove _ _ => exact .inl ⟨rfl, rfl⟩
  | enter takes _ _ _ => cases takes; exact .inr (.inr ⟨rfl, by simp⟩)
  | cut takes _ _ => cases takes; exact .inr (.inr ⟨rfl, by simp⟩)
  | takeOnly takes _ _ => cases takes; exact .inr (.inr ⟨rfl, by simp⟩)
  | _ => exact .inr (.inr ⟨rfl, by simp⟩)

end Search

/-- The counters that can be read off the searches. -/
def Counter.booked : List Counter := [.expansions, .depthIncreases, .targetsProven, .targetsFailed]

namespace Search

/-- What a search has contributed to a counter. -/
def account (startingDepth : Nat) (c : Counter) (x : Search) : Nat :=
  match c with
  | .expansions => x.expansions - 1
  | .depthIncreases => x.limit - startingDepth
  | .targetsProven => if x.verdict = .proven then 1 else 0
  | .targetsFailed => if x.verdict = .noProof then 1 else 0
  | _ => 0

variable {k : Kernel} {g : Guidance} {maxDepth startingDepth : Nat} {target : Statement}
  {x y : Search} {ok : Bool} {events : List Counter}

/-- **Moves are booked.** A move adds to the account of the search what it counts. -/
theorem Moves.account (h : x.IsKept k maxDepth startingDepth target) (going : x.isDone = false)
    (moves : x.Moves g ok events y) {c : Counter} (booked : c ∈ Counter.booked) :
    y.account startingDepth c = x.account startingDepth c + events.count c := by
  have hgoing := isDone_eq_false.1 going
  cases c with
  | expansions =>
    have hcounted := h.counted
    rw [Search.account, Search.account, moves.fields.1]
    omega
  | depthIncreases =>
    have hleast := h.least
    rw [Search.account, Search.account, moves.fields.2]
    omega
  | targetsProven =>
    rw [Search.account, Search.account, hgoing]
    rcases moves.verdict_cases with ⟨hy, rfl⟩ | ⟨hy, rfl⟩ | ⟨hy, hproven, -⟩
    · simp [hy]
    · simp [hy]
    · simp [hy, hgoing, List.count_eq_zero.2 hproven]
  | targetsFailed =>
    rw [Search.account, Search.account, hgoing]
    rcases moves.verdict_cases with ⟨hy, rfl⟩ | ⟨hy, rfl⟩ | ⟨hy, -, hfailed⟩
    · simp [hy]
    · simp [hy]
    · simp [hy, hgoing, List.count_eq_zero.2 hfailed]
  | statesOpened => simp [Counter.booked] at booked
  | steps => simp [Counter.booked] at booked

theorem isKept_new {root : ProofState} {limit : Nat} (begins : k.Begins target root)
    (most : limit ≤ maxDepth) : ({ root, limit } : Search).IsKept k maxDepth limit target :=
  ⟨begins, Nat.le_refl limit, most, .nil, Nat.zero_le limit, Nat.le_refl 1, by simp, fun _ => rfl⟩

theorem account_new (root : ProofState) (limit : Nat) (c : Counter) :
    ({ root, limit } : Search).account limit c = 0 := by
  cases c with
  | depthIncreases => exact Nat.sub_self limit
  | _ => rfl

end Search

/-! ### Tasks -/

namespace Task

/-- What becomes of a search and its counters, by moves of which the last may have failed. -/
structure Carries (k : Kernel) (maxDepth startingDepth : Nat) (target : Statement) (t t' : Task) :
    Prop where
  kept : t'.search.IsKept k maxDepth startingDepth target
  rests : t.search.isDone = true → t'.search = t.search
  booked : ∀ c ∈ Counter.booked, t'.stats.get c + t.search.account startingDepth c =
    t.stats.get c + t'.search.account startingDepth c

variable {k : Kernel} {g : Guidance} {maxDepth startingDepth : Nat} {target : Statement}
  {t t' t'' : Task} {outcome : Checked Unit} {source source' : Source}

theorem Carries.refl (h : t.search.IsKept k maxDepth startingDepth target) :
    t.Carries k maxDepth startingDepth target t :=
  ⟨h, fun _ => rfl, fun _ _ => rfl⟩

theorem Carries.trans (h : t.Carries k maxDepth startingDepth target t')
    (h' : t'.Carries k maxDepth startingDepth target t'') :
    t.Carries k maxDepth startingDepth target t'' := by
  refine ⟨h'.kept, fun done => ?_, fun c hc => ?_⟩
  · have hfirst := h.rests done
    rw [h'.rests (by rw [hfirst]; exact done), hfirst]
  · have hfirst := h.booked c hc
    have hsecond := h'.booked c hc
    omega

/-- A search is started, or stays what it was. -/
theorem carries_start {root : ProofState} {limit : Nat} {stats : Statistics}
    (begins : g.kernel.Begins target root) (positive : 0 < limit) (most : limit ≤ g.maxDepth)
    (fixed : source.rules = g.kernel.rules)
    (run : ((Task.start g).runOn ⟨{ root, limit }, stats⟩).run source = ((outcome, t), source')) :
    source'.rules = g.kernel.rules ∧
      (∀ cause, outcome = .error cause → t.search = { root, limit }) ∧
      Carries g.kernel g.maxDepth limit target ⟨{ root, limit }, stats⟩ t := by
  have hnew : ({ root, limit } : Search).IsKept g.kernel g.maxDepth limit target :=
    Search.isKept_new begins most
  rw [runOn_start fixed] at run
  split at run
  next =>
    cases run
    refine ⟨fixed, ?_, hnew.prove root, ?_, fun c hc => ?_⟩
    · rintro _ ⟨⟩
    · rintro ⟨⟩
    · rw [Statistics.get_add, Search.account_new]
      cases c with
      | statesOpened => simp [Counter.booked] at hc
      | steps => simp [Counter.booked] at hc
      | depthIncreases => simp [Search.account, Search.prove]
      | _ => rfl
  next =>
    obtain ⟨hfixed, hstats, hentered⟩ := enter_cases fixed run
    have hsame : ∀ c ∈ Counter.booked, t.stats.get c = stats.get c := by
      intro c hc
      rw [hstats, Statistics.get_add, if_neg, Nat.add_zero]
      rintro rfl
      simp [Counter.booked] at hc
    rcases hentered with ⟨cursor, rfl, hopened, hsearch⟩ | ⟨cause, rfl, hsearch⟩
    · refine ⟨hfixed, ?_, ?_, ?_, fun c hc => ?_⟩
      · rintro _ ⟨⟩
      · rw [hsearch]
        exact hnew.restack rfl (.root hopened.lasts) positive
      · rintro ⟨⟩
      · rw [hsame c hc, hsearch]
        cases c with
        | _ => rfl
    · refine ⟨hfixed, fun _ _ => hsearch, ?_, fun _ => hsearch, fun c hc => ?_⟩
      · rw [hsearch]
        exact hnew
      · rw [hsame c hc, hsearch]

theorem carries_step (h : t.search.IsKept g.kernel g.maxDepth startingDepth target)
    (going : t.search.isDone = false) (fixed : source.rules = g.kernel.rules)
    (run : ((step g).runOn t).run source = ((outcome, t'), source')) :
    (outcome = .ok () → source'.rules = g.kernel.rules) ∧
      t.Carries g.kernel g.maxDepth startingDepth target t' := by
  have heach : ∀ f outer, t.search.stack = f :: outer →
      f.cursor.supply.Each g.kernel.rules (g.kernel.IsSuccessor f.state) := by
    intro f outer top
    have hstacked := h.stacked
    rw [top] at hstacked
    exact hstacked.lasts.each
  obtain ⟨hfixed, events, hmoves, hstats⟩ := moves_of_step fixed heach run
  refine ⟨hfixed, h.moves going hmoves, fun done => ?_, fun c hc => ?_⟩
  · rw [going] at done
    cases done
  · rw [hstats, Statistics.get_count, hmoves.account h going hc]
    omega

theorem carries_steps (h : t.search.IsKept g.kernel g.maxDepth startingDepth target) (count : Nat)
    (fixed : source.rules = g.kernel.rules)
    (run : ((steps g count).runOn t).run source = ((outcome, t'), source')) :
    (outcome = .ok () → source'.rules = g.kernel.rules) ∧
      t.Carries g.kernel g.maxDepth startingDepth target t' := by
  induction count generalizing t source with
  | zero =>
    cases run
    exact ⟨fun _ => fixed, .refl h⟩
  | succ count ih =>
    rw [steps, Changes.runOn_get_bind] at run
    by_cases hdone : t.search.isDone = true
    · rw [if_pos hdone] at run
      cases run
      exact ⟨fun _ => fixed, .refl h⟩
    · have hgoing : t.search.isDone = false := by simpa using hdone
      rw [if_neg hdone, Changes.runOn_bind] at run
      rcases hstep : ((step g).runOn t).run source with ⟨⟨cause | ⟨⟩, t₁⟩, source₁⟩
      · rw [hstep] at run
        cases run
        exact carries_step h hgoing fixed hstep
      · rw [hstep] at run
        obtain ⟨hfixed, hcarries⟩ := carries_step h hgoing fixed hstep
        obtain ⟨hfixed', hcarries'⟩ := ih hcarries.kept (hfixed rfl) run
        exact ⟨hfixed', hcarries.trans hcarries'⟩

end Task

end Equational
