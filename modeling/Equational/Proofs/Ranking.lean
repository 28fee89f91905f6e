import Equational.Proofs.Benefit
import Equational.Proofs.Supply
import Equational.Ranking

/-!
# Ranking loses nothing, and gives the best first

A ranked supply gives the items of the supply that it ranks, each as often as before. For
this the count that the strategy keeps has to agree with what was taken in: a strategy that
has stopped has something at hand, and one that has not stopped takes one more item.

What is given is the best of what was taken in and not given before. Items are numbered in
the order in which they are taken in, so that of two items with the same benefit one can say
which of them comes first. What the supply has to keep from one item to the next is in
`Ranking.Tracks`, and what it gives from there on is in `Ranking.Serves`.

What a supply gives may also be of interest if a violation stops it before its end.
`Supply.Each` says something of every item that is given, at the end or not.
-/

namespace Equational

variable {α β : Type} {rules : List Rule} {lenient : Prop}

/-! ### Insertion -/

theorem Benefit.insert_perm (benefit : α → Float32) (new : α) (l : List α) :
    (Benefit.insert benefit new l).Perm (new :: l) := by
  induction l with
  | nil => exact .refl _
  | cons old rest ih =>
    rw [insert]
    split
    · exact .refl _
    · exact (ih.cons old).trans (.swap new old rest)

theorem Benefit.insert_map (benefit : α → Float32) (f : β → α) (new : β) (l : List β) :
    Benefit.insert benefit (f new) (l.map f) =
      (Benefit.insert (fun b => benefit (f b)) new l).map f := by
  induction l with
  | nil => rfl
  | cons old rest ih =>
    simp only [List.map_cons, insert]
    split
    · rfl
    · rw [ih]
      rfl

namespace Ranking

/-- Of two items with their benefits and numbers, the first one has the greater benefit, or no
smaller one and was taken in before. -/
def Beats (e f : (Float32 × α) × Nat) : Prop :=
  Benefit.Below f.1.1 e.1.1 ∨ ¬ Benefit.Below e.1.1 f.1.1 ∧ e.2 < f.2

theorem beats_iff {e f : (Float32 × α) × Nat} : Beats e f ↔
    Benefit.rank f.1.1 < Benefit.rank e.1.1 ∨
      Benefit.rank f.1.1 ≤ Benefit.rank e.1.1 ∧ e.2 < f.2 := by
  rw [Beats, ← Benefit.rank_lt_iff, ← Benefit.rank_lt_iff, Int.not_lt]

theorem pairwise_insert {new : (Float32 × α) × Nat} {l : List ((Float32 × α) × Nat)}
    (sorted : l.Pairwise Beats) (latest : ∀ e ∈ l, e.2 < new.2) :
    (Benefit.insert (fun e : (Float32 × α) × Nat => e.1.1) new l).Pairwise Beats := by
  induction l with
  | nil => exact List.pairwise_singleton _ _
  | cons old rest ih =>
    obtain ⟨hold, hrest⟩ := List.pairwise_cons.1 sorted
    rw [Benefit.insert]
    split
    next hbetter =>
      refine List.pairwise_cons.2 ⟨?_, sorted⟩
      intro e he
      rcases List.mem_cons.1 he with rfl | he
      · exact beats_iff.2 (.inl hbetter)
      · have hle := beats_iff.1 (hold e he)
        exact beats_iff.2 (.inl (by omega))
    next hbehind =>
      refine List.pairwise_cons.2 ⟨?_, ih hrest fun e he => latest e (List.mem_cons_of_mem _ he)⟩
      intro e he
      rcases List.mem_cons.1 ((Benefit.insert_perm _ new rest).mem_iff.1 he) with rfl | he
      · exact beats_iff.2 (.inr ⟨by omega, latest old List.mem_cons_self⟩)
      · exact hold e he

/-- The entry is in the pool and was not given before, and every other one of these comes after
it. -/
def IsBest (pool given : List ((Float32 × α) × Nat)) (e : (Float32 × α) × Nat) : Prop :=
  e ∈ pool ∧ e ∉ given ∧ ∀ f ∈ pool, f ∉ given → f = e ∨ Beats e f

theorem nodup_zipIdx (xs : List β) : xs.zipIdx.Nodup := by
  have hnumbers : (xs.zipIdx.map Prod.snd).Pairwise (· ≠ ·) := by
    rw [List.zipIdx_map_snd]
    exact List.nodup_range' 1
  exact hnumbers.of_map Prod.snd fun _ _ hne heq => hne (congrArg Prod.snd heq)

theorem isBest_of_perm {xs : List (Float32 × α)} {given rest : List ((Float32 × α) × Nat)}
    {e : (Float32 × α) × Nat} (perm : (given ++ e :: rest).Perm xs.zipIdx)
    (sorted : (e :: rest).Pairwise Beats) : IsBest xs.zipIdx given e := by
  have hdistinct := List.nodup_append.1 (perm.nodup_iff.2 (nodup_zipIdx xs))
  refine ⟨perm.mem_iff.1 (by simp), ?_, ?_⟩
  · intro hgiven
    exact hdistinct.2.2 e hgiven e List.mem_cons_self rfl
  · intro f hf hnew
    rcases List.mem_append.1 (perm.mem_iff.2 hf) with hgiven | hwaiting
    · exact absurd hgiven hnew
    · rcases List.mem_cons.1 hwaiting with rfl | hlater
      · exact .inl rfl
      · exact .inr ((List.pairwise_cons.1 sorted).1 f hlater)

end Ranking

/-! ### Strategies keep count -/

namespace Strategy

/-- The number of candidates that the strategy always keeps, if there is one. -/
def capacity : Strategy → Option Nat
  | .fixed s => some s.size
  | .basic _ => none
  | .rehearsed _ _ s => s.capacity

/-- The strategy knows of so many candidates, and has not stopped without any. If it is told its
costs from a list, there are some and they are positive. -/
def Keeps (n : Nat) : Strategy → Prop
  | .fixed s => s.current = n ∧ 0 < s.size ∧ s.current ≤ s.size
  | .basic s => s.benefits.length = n ∧ (s.stopped = true → s.benefits ≠ [])
  | .rehearsed costs _ s => 0 < costs.size ∧ (∀ cost ∈ costs, cost > 0) ∧ s.Keeps n

variable {n : Nat} {s : Strategy}

theorem Keeps.pos (h : s.Keeps n) (stopped : s.isStopped = true) : 0 < n := by
  induction s with
  | fixed s =>
    obtain ⟨rfl, hsize, -⟩ := h
    have hfull : s.current = s.size := eq_of_beq stopped
    omega
  | basic s =>
    obtain ⟨rfl, hsome⟩ := h
    exact List.length_pos_iff.2 (hsome stopped)
  | rehearsed costs told s ih => exact ih h.2.2 stopped

theorem Keeps.le_capacity {size : Nat} (h : s.Keeps n) (hsize : s.capacity = some size) :
    n ≤ size := by
  induction s with
  | fixed s =>
    obtain ⟨rfl, -, hle⟩ := h
    obtain rfl := Option.some.inj hsize
    exact hle
  | basic s => cases hsize
  | rehearsed costs told s ih => exact ih h.2.2 hsize

theorem Keeps.eq_capacity {size : Nat} (h : s.Keeps n) (hsize : s.capacity = some size)
    (stopped : s.isStopped = true) : n = size := by
  induction s with
  | fixed s =>
    obtain ⟨rfl, -, -⟩ := h
    obtain rfl := Option.some.inj hsize
    exact eq_of_beq stopped
  | basic s => cases hsize
  | rehearsed costs told s ih => exact ih h.2.2 hsize stopped

theorem benefits_ne_nil_of_update (s : BasicStrategy) (stopped : s.update.stopped = true) :
    s.benefits ≠ [] := by
  intro hnone
  simp [BasicStrategy.update, hnone] at stopped

theorem Keeps.add (h : s.Keeps n) (running : s.isStopped = false) (benefit : Float32)
    {cost : Float32} (positive : cost > 0) :
    ∃ s', s.add benefit cost = (.ok (), s') ∧ s'.Keeps (n + 1) ∧ s'.capacity = s.capacity := by
  induction s generalizing cost with
  | fixed s =>
    obtain ⟨rfl, hsize, hle⟩ := h
    have hrunning : s.isStopped = false := running
    have hne : s.current ≠ s.size := by
      intro heq
      rw [FixedStrategy.isStopped, heq, beq_self_eq_true] at hrunning
      cases hrunning
    refine ⟨.fixed { s with current := s.current + 1 }, ?_, ⟨rfl, hsize, ?_⟩, rfl⟩
    · rw [Strategy.add, FixedStrategy.add, hrunning]
      rfl
    · show s.current + 1 ≤ s.size
      omega
  | basic s =>
    obtain ⟨rfl, -⟩ := h
    have hrunning : s.stopped = false := running
    have hcost : decide (cost > 0) = true := decide_eq_true positive
    obtain ⟨s', hadd, hbenefits⟩ : ∃ s', s.add benefit cost = .ok (.update s') ∧
        s'.benefits = Benefit.insert id benefit s.benefits := by
      rw [BasicStrategy.add, hrunning, hcost]
      exact ⟨_, rfl, rfl⟩
    refine ⟨.basic s'.update, by rw [Strategy.add, hadd], ⟨?_, benefits_ne_nil_of_update s'⟩, rfl⟩
    show s'.benefits.length = s.benefits.length + 1
    rw [hbenefits]
    exact (Benefit.insert_perm id benefit s.benefits).length_eq
  | rehearsed costs told s ih =>
    obtain ⟨hsize, hcosts, hkeeps⟩ := h
    have hlt : told % costs.size < costs.size := Nat.mod_lt _ hsize
    obtain ⟨s', hadd, hkeeps', hcapacity⟩ :=
      ih hkeeps running (hcosts costs[told % costs.size] (Array.getElem_mem hlt))
    refine ⟨.rehearsed costs (told + 1) s', ?_, ⟨hsize, hcosts, hkeeps'⟩, hcapacity⟩
    rw [Strategy.add, Array.getElem?_eq_getElem hlt]
    dsimp only
    rw [hadd]

theorem Keeps.removeBest (h : s.Keeps (n + 1)) (stopped : s.isStopped = true) :
    ∃ s', s.removeBest = .ok s' ∧ s'.Keeps n ∧ s'.capacity = s.capacity := by
  induction s with
  | fixed s =>
    obtain ⟨hcurrent, hsize, hle⟩ := h
    have hstopped : s.isStopped = true := stopped
    refine ⟨.fixed { s with current := s.current - 1 }, ?_, ⟨?_, hsize, ?_⟩, rfl⟩
    · rw [Strategy.removeBest, FixedStrategy.removeBest, hstopped]
      rfl
    · show s.current - 1 = n
      omega
    · show s.current - 1 ≤ s.size
      omega
  | basic s =>
    obtain ⟨hlength, -⟩ := h
    have hstopped : s.stopped = true := stopped
    refine ⟨.basic (.update { s with benefits := s.benefits.tail }), ?_,
      ⟨?_, benefits_ne_nil_of_update _⟩, rfl⟩
    · rw [Strategy.removeBest, BasicStrategy.removeBest, hstopped]
      rfl
    · show s.benefits.tail.length = n
      rw [List.length_tail, hlength, Nat.add_sub_cancel]
  | rehearsed costs told s ih =>
    obtain ⟨hsize, hcosts, hkeeps⟩ := h
    obtain ⟨s', hremove, hkeeps', hcapacity⟩ := ih hkeeps stopped
    refine ⟨.rehearsed costs told s', ?_, ⟨hsize, hcosts, hkeeps'⟩, hcapacity⟩
    rw [Strategy.removeBest, hremove]
    rfl

end Strategy

theorem Stopping.keeps_start {stopping : Stopping} {s : Strategy} (h : stopping.start = .ok s) :
    s.Keeps 0 := by
  cases stopping with
  | fixed size =>
    obtain ⟨fixed, hmake, hs⟩ := bind_eq_ok.1 h
    obtain ⟨_, hsize, hmake⟩ := bind_eq_ok.1 hmake
    obtain rfl := Except.ok.inj hmake
    obtain rfl := Except.ok.inj hs
    exact ⟨rfl, of_decide_eq_true (require_eq_ok.1 hsize), Nat.zero_le _⟩
  | basic fill lambda alpha =>
    obtain ⟨basic, hmake, hs⟩ := bind_eq_ok.1 h
    obtain ⟨_, _, hmake⟩ := bind_eq_ok.1 hmake
    obtain ⟨_, _, hmake⟩ := bind_eq_ok.1 hmake
    obtain ⟨_, _, hmake⟩ := bind_eq_ok.1 hmake
    obtain rfl := Except.ok.inj hmake
    obtain rfl := Except.ok.inj hs
    exact ⟨rfl, nofun⟩

/-! ### What a ranking keeps -/

namespace Ranking

/-- Of the items taken in, in this order, some were given and the others are waiting, best first.
The count of the strategy agrees with this. -/
structure Tracks (r : Ranking α) (taken : List (Float32 × α))
    (given waiting : List ((Float32 × α) × Nat)) : Prop where
  keeps : r.strategy.Keeps waiting.length
  buffer : r.buffer = waiting.map Prod.fst
  perm : (given ++ waiting).Perm taken.zipIdx
  sorted : waiting.Pairwise Beats

variable {r : Ranking α} {xs : List (Float32 × α)} {given waiting : List ((Float32 × α) × Nat)}

theorem tracks_new {strategy : Strategy} (keeps : strategy.Keeps 0) :
    ({ strategy } : Ranking α).Tracks [] [] [] :=
  ⟨keeps, rfl, .refl _, .nil⟩

theorem Tracks.length_eq (h : r.Tracks xs given waiting) :
    given.length + waiting.length = xs.length := by
  have hlength := h.perm.length_eq
  rwa [List.length_append, List.length_zipIdx] at hlength

theorem costOf_pos (seconds : Float32) : costOf seconds > 0 := by
  have hleast : decide (leastCost > 0) = true := by decide
  rw [costOf]
  split
  next hmore => exact Benefit.lt_trans (of_decide_eq_true hleast) hmore
  next => exact of_decide_eq_true hleast

/-- A ranking that has not stopped takes in an item. -/
theorem Tracks.take (h : r.Tracks xs given waiting) (running : r.strategy.isStopped = false)
    (benefit : Float32) {cost : Float32} (positive : cost > 0) (item : α) :
    ∃ r' waiting', r.take benefit cost item = (.ok (), r') ∧
      r'.Tracks (xs ++ [(benefit, item)]) given waiting' ∧
      r'.strategy.capacity = r.strategy.capacity := by
  obtain ⟨s', hadd, hkeeps, hcapacity⟩ := h.keeps.add running benefit positive
  let new : (Float32 × α) × Nat := ((benefit, item), xs.length)
  have hinsert := Benefit.insert_perm (fun e : (Float32 × α) × Nat => e.1.1) new waiting
  refine ⟨⟨s', Benefit.insert Prod.fst (benefit, item) r.buffer, r.taken + 1⟩,
    Benefit.insert (fun e : (Float32 × α) × Nat => e.1.1) new waiting, ?_, ⟨?_, ?_, ?_, ?_⟩,
    hcapacity⟩
  · rw [Ranking.take, hadd]
  · rw [hinsert.length_eq]
    exact hkeeps
  · rw [h.buffer]
    exact Benefit.insert_map Prod.fst Prod.fst new waiting
  · rw [List.zipIdx_append, Nat.zero_add]
    have hmiddle : (given ++ new :: waiting).Perm (new :: (given ++ waiting)) := List.perm_middle
    refine ((hinsert.append_left given).trans hmiddle).trans ?_
    exact (h.perm.cons new).trans (List.perm_append_singleton new _).symm
  · refine pairwise_insert h.sorted ?_
    intro e he
    have hmem := h.perm.mem_iff.1 (List.mem_append_right given he)
    have hlt := List.snd_lt_add_of_mem_zipIdx hmem
    rwa [Nat.zero_add] at hlt

/-! ### What a ranking gives -/

/-- What is given from here on: the entries that were taken in but not given, and those taken in
later, which satisfy `post`. Each one is the best of those seen when it is given. If the capacity
is fixed, then with each entry that was given one more has been seen. -/
def Serves (capacity : Option Nat) (xs : List (Float32 × α)) (given : List ((Float32 × α) × Nat))
    (post : List (Float32 × α) → Prop) (items : List α) : Prop :=
  ∃ (later : List (Float32 × α)) (order : List ((Float32 × α) × Nat)), post later ∧
    items = order.map (fun e => e.1.2) ∧ (given ++ order).Perm (xs ++ later).zipIdx ∧
    ∀ before e after, order = before ++ e :: after →
      ∃ seen, (∀ n, capacity = some n → seen = n + (given.length + before.length)) ∧
        IsBest ((xs ++ later).zipIdx.take seen) (given ++ before) e

variable {capacity : Option Nat} {post : List (Float32 × α) → Prop} {items : List α}

theorem Serves.mono {post' : List (Float32 × α) → Prop} (imp : ∀ l, post l → post' l)
    (h : Serves capacity xs given post items) : Serves capacity xs given post' items := by
  obtain ⟨later, order, hpost, hrest⟩ := h
  exact ⟨later, order, imp later hpost, hrest⟩

/-- An item that was taken in is one of those taken in later, seen from before. -/
theorem Serves.of_append {entry : Float32 × α}
    (h : Serves capacity (xs ++ [entry]) given post items) :
    Serves capacity xs given (fun l => ∃ rest, l = entry :: rest ∧ post rest) items := by
  obtain ⟨later, order, hpost, hitems, hperm, hbest⟩ := h
  rw [List.append_assoc, List.singleton_append] at hperm hbest
  exact ⟨entry :: later, order, ⟨later, rfl, hpost⟩, hitems, hperm, hbest⟩

theorem take_zipIdx_append (xs later : List β) :
    (xs ++ later).zipIdx.take xs.length = xs.zipIdx := by
  rw [List.zipIdx_append]
  exact List.take_left' List.length_zipIdx

/-- The best of those at hand is given, and then the others. -/
theorem Serves.cons {e : (Float32 × α) × Nat} (best : IsBest xs.zipIdx given e)
    (full : ∀ n, capacity = some n → xs.length = n + given.length)
    (h : Serves capacity xs (given ++ [e]) post items) :
    Serves capacity xs given post (e.1.2 :: items) := by
  obtain ⟨later, order, hpost, rfl, hperm, hbest⟩ := h
  rw [List.append_assoc, List.singleton_append] at hperm
  refine ⟨later, e :: order, hpost, rfl, hperm, ?_⟩
  intro before f after hsplit
  cases before with
  | nil =>
    obtain rfl : e = f := (List.cons.inj hsplit).1
    -- when `e` is given, just the entries of `xs` were seen
    refine ⟨xs.length, full, ?_⟩
    rw [take_zipIdx_append, List.append_nil]
    exact best
  | cons first before =>
    obtain ⟨rfl, htail⟩ := List.cons.inj hsplit
    obtain ⟨seen, hseen, hbest⟩ := hbest before f after htail
    rw [List.append_assoc, List.singleton_append] at hbest
    refine ⟨seen, fun n hn => ?_, hbest⟩
    have := hseen n hn
    simp only [List.length_append, List.length_cons, List.length_nil] at this ⊢
    omega

/-- Where nothing more can be taken in, those at hand are given in their order. -/
theorem Tracks.serves (h : r.Tracks xs given waiting) (hpost : post []) :
    Serves r.strategy.capacity xs given post (waiting.map fun e => e.1.2) := by
  refine ⟨[], waiting, hpost, rfl, ?_, ?_⟩
  · rw [List.append_nil]
    exact h.perm
  intro before e after hsplit
  have hlength := h.length_eq
  subst hsplit
  have hbest : IsBest xs.zipIdx (given ++ before) e := by
    refine isBest_of_perm ?_ (List.pairwise_append.1 h.sorted).2.1
    rw [List.append_assoc]
    exact h.perm
  refine ⟨r.strategy.capacity.elim xs.length fun n => n + (given.length + before.length), ?_, ?_⟩
  · intro n hn
    rw [hn]
    rfl
  · -- all entries were seen: no more of them wait than the capacity allows
    rw [List.append_nil, List.take_of_length_le]
    · exact hbest
    · rw [List.length_zipIdx]
      cases hcapacity : r.strategy.capacity with
      | none => exact Nat.le_refl _
      | some n =>
        have hle := h.keeps.le_capacity hcapacity
        show xs.length ≤ n + (given.length + before.length)
        omega

theorem runs_serveAll (taken : Nat) (buffer : List (Float32 × α)) :
    (serveAll taken buffer).Runs rules lenient fun items => items = buffer.map Prod.snd := by
  induction buffer with
  | nil => exact rfl
  | cons entry buffer ih =>
    obtain ⟨benefit, item⟩ := entry
    rw [serveAll]
    exact fun source hs => ⟨hs, ih.mono fun items hitems => congrArg (item :: ·) hitems⟩

/-- While the strategy has stopped, the best of those at hand is given. -/
theorem runs_serve {size taken : Nat} {takeMore : Ranking α → Supply α → Source → Reply α}
    (more : ∀ (r : Ranking α) (left : Supply α) (source : Source) (given waiting),
      r.Tracks xs given waiting → r.strategy.capacity = capacity →
      r.strategy.isStopped = false → source.rules = rules →
      (takeMore r left source).Runs rules lenient (Serves capacity xs given post))
    {strategy : Strategy} {buffer : List (Float32 × α)}
    (tracks : (Ranking.mk strategy buffer taken).Tracks xs given waiting)
    (hcapacity : strategy.capacity = capacity) (stopped : strategy.isStopped = true) :
    (serve size taken takeMore buffer strategy).Runs rules lenient
      (Serves capacity xs given post) := by
  induction waiting generalizing given strategy buffer with
  | nil => exact absurd (tracks.keeps.pos stopped) (Nat.lt_irrefl 0)
  | cons e waiting ih =>
    obtain ⟨hkeeps, hbuffer, hperm, hsorted⟩ := tracks
    obtain rfl : buffer = e.1 :: waiting.map Prod.fst := hbuffer
    obtain ⟨strategy', hremove, hkeeps', hcapacity'⟩ := hkeeps.removeBest stopped
    -- without the best one, which is then among those given
    have htracks : (Ranking.mk strategy' (waiting.map Prod.fst) taken).Tracks xs (given ++ [e])
        waiting := by
      refine ⟨hkeeps', rfl, ?_, (List.pairwise_cons.1 hsorted).2⟩
      rw [List.append_assoc]
      exact hperm
    have hfull : ∀ n, capacity = some n → xs.length = n + given.length := by
      intro n hn
      have hlength := htracks.length_eq
      have heq := hkeeps.eq_capacity (hcapacity.trans hn) stopped
      simp only [List.length_append, List.length_cons, List.length_nil] at hlength heq
      omega
    have hcons : ∀ items, Serves capacity xs (given ++ [e]) post items →
        Serves capacity xs given post (e.1.2 :: items) :=
      fun items => .cons (isBest_of_perm hperm hsorted) hfull
    intro source hs
    simp only [hremove]
    split
    next hstopped => exact ⟨hs, (ih htracks (hcapacity'.trans hcapacity) hstopped).mono hcons⟩
    next hrunning =>
      have hmore := more ⟨strategy', waiting.map Prod.fst, taken⟩
        (serve size taken takeMore (waiting.map Prod.fst) strategy') source _ _ htracks
        (hcapacity'.trans hcapacity) (by simpa using hrunning) hs
      exact hmore.mono hcons

/-- The items satisfy `post`, and each benefit was predicted, from some source with the rules. -/
def Foretold (rules : List Rule) (predict : α → Draws Float32) (post : List α → Prop)
    (l : List (Float32 × α)) : Prop :=
  post (l.map Prod.snd) ∧ ∀ entry ∈ l, ∃ source source' : Source, source.rules = rules ∧
    (predict entry.2).runOn source = (.ok entry.1, source')

end Ranking

variable {predict : α → Draws Float32}

mutual
/-- Ranked, a supply gives what was taken in and its own items, the best of those seen first. -/
theorem Supply.runs_rank_tracks
    (hpredict : ∀ a, (predict a).Meets rules lenient fun _ => True) :
    {supply : Supply α} → {post : List α → Prop} → supply.Runs rules lenient post →
    (r : Ranking α) → (xs : List (Float32 × α)) → (given waiting : List ((Float32 × α) × Nat)) →
    r.Tracks xs given waiting → (source : Source) → source.rules = rules →
    (supply.rank predict r source).Runs rules lenient
      (Ranking.Serves r.strategy.capacity xs given (Ranking.Foretold rules predict post))
  | .done _, post, h, r, xs, given, waiting, tracks, source, hs => by
    rw [Supply.rank]
    have hall := tracks.serves (show Ranking.Foretold rules predict post [] from ⟨h, by simp⟩)
    refine ⟨hs, (Ranking.runs_serveAll r.taken r.buffer).mono fun items hitems => ?_⟩
    rw [hitems, tracks.buffer, List.map_map]
    exact hall
  | .item value gauge next, post, h, r, xs, given, waiting, tracks, source, hs => by
    rw [Supply.rank]
    split
    next hstopped =>
      refine ⟨hs, Ranking.runs_serve ?_ tracks rfl hstopped⟩
      intro r' left source' given' waiting' tracks' hcapacity hrunning hs'
      rw [← hcapacity]
      exact Reply.runs_rank_tracks hpredict value (h source' hs') r' xs given' waiting' tracks'
        hrunning
    next hrunning =>
      exact Reply.runs_rank_tracks hpredict value (h source hs) r xs given waiting tracks
        (by simpa using hrunning)
  | .stuck level gauge, post, h, r, xs, given, waiting, tracks, source, hs => by
    rw [Supply.rank]
    dsimp only
    split
    next hstopped =>
      refine ⟨hs, Ranking.runs_serve ?_ tracks rfl hstopped⟩
      intro _ _ _ _ _ _ _ _ _
      exact h
    next => exact h
theorem Reply.runs_rank_tracks
    (hpredict : ∀ a, (predict a).Meets rules lenient fun _ => True) (value : α) :
    {reply : Reply α} → {post : List α → Prop} →
    reply.Runs rules lenient (fun rest => post (value :: rest)) →
    (r : Ranking α) → (xs : List (Float32 × α)) → (given waiting : List ((Float32 × α) × Nat)) →
    r.Tracks xs given waiting → r.strategy.isStopped = false →
    (reply.rank predict value r).Runs rules lenient
      (Ranking.Serves r.strategy.capacity xs given (Ranking.Foretold rules predict post))
  | .rest supply source, post, ⟨hs, h⟩, r, xs, given, waiting, tracks, running => by
    rw [Reply.rank]
    have hbenefit := hpredict value source hs
    revert hbenefit
    rcases hrun : (predict value).runOn source with ⟨cause | benefit, source'⟩
    · exact fun hlenient => hlenient
    · rintro ⟨hs', -⟩
      have hpositive := Ranking.costOf_pos source'.takeTime.1
      obtain ⟨r', waiting', htake, tracks', hcapacity⟩ :=
        tracks.take running benefit hpositive value
      simp only [htake]
      have hserves := Supply.runs_rank_tracks hpredict h r' _ given waiting' tracks'
        source'.takeTime.2 (source'.rules_takeTime.trans hs')
      rw [hcapacity] at hserves
      refine hserves.mono fun items hitems => hitems.of_append.mono ?_
      rintro l ⟨rest, rfl, hpost, hforetold⟩
      refine ⟨hpost, fun entry hentry => ?_⟩
      rcases List.mem_cons.1 hentry with rfl | hmem
      · exact ⟨source, source', hs, hrun⟩
      · exact hforetold entry hmem
  | .broken _ _ _, _, h, _, _, _, _, _, _ => by
    rw [Reply.rank]
    exact h
end

/-- **Ranking loses nothing and gives the best first.** -/
theorem Supply.runs_rank (hpredict : ∀ a, (predict a).Meets rules lenient fun _ => True)
    {supply : Supply α} {post : List α → Prop} (runs : supply.Runs rules lenient post)
    {strategy : Strategy} (keeps : strategy.Keeps 0) (source : Source)
    (hs : source.rules = rules) :
    (supply.rank predict { strategy } source).Runs rules lenient
      (Ranking.Serves strategy.capacity [] [] (Ranking.Foretold rules predict post)) :=
  Supply.runs_rank_tracks hpredict runs { strategy } [] [] [] (Ranking.tracks_new keeps) source hs

theorem Ranking.Serves.perm {capacity : Option Nat} {post : List α → Prop} {items : List α}
    (h : Serves capacity [] [] (Foretold rules predict post) items) :
    ∃ rest, post rest ∧ items.Perm rest := by
  obtain ⟨later, order, ⟨hpost, -⟩, rfl, hperm, -⟩ := h
  refine ⟨later.map Prod.snd, hpost, ?_⟩
  have hmap := hperm.map fun e => e.1.2
  have hitems : later.zipIdx.map (fun e => e.1.2) = later.map Prod.snd := by
    conv => rhs; rw [← List.zipIdx_map_fst 0 later, List.map_map]
    rfl
  rw [List.nil_append, List.nil_append, hitems] at hmap
  exact hmap

/-! ### Each item that is given -/

mutual
/-- Every item that the supply gives has the property, also if it does not come to its end. -/
def Supply.Each (rules : List Rule) (Q : α → Prop) : Supply α → Prop
  | .done _ => True
  | .item value _ next =>
    Q value ∧ ∀ source : Source, source.rules = rules → (next source).Each rules Q
  | .stuck _ _ => True
/-- The same for what comes after an item. -/
def Reply.Each (rules : List Rule) (Q : α → Prop) : Reply α → Prop
  | .rest supply source => source.rules = rules ∧ supply.Each rules Q
  | .broken _ _ _ => True
end

variable {Q : α → Prop}

theorem Ranking.each_serveAll (taken : Nat) {buffer : List (Float32 × α)}
    (h : ∀ entry ∈ buffer, Q entry.2) : (serveAll taken buffer).Each rules Q := by
  induction buffer with
  | nil => trivial
  | cons entry buffer ih =>
    rw [serveAll]
    refine ⟨h entry List.mem_cons_self, fun source hs => ⟨hs, ih fun e he => ?_⟩⟩
    exact h e (List.mem_cons_of_mem _ he)

theorem Ranking.each_serve {size taken : Nat} {takeMore : Ranking α → Supply α → Source → Reply α}
    (more : ∀ (r : Ranking α) (left : Supply α) (source : Source), (∀ entry ∈ r.buffer, Q entry.2) →
      source.rules = rules → (takeMore r left source).Each rules Q)
    {buffer : List (Float32 × α)} {strategy : Strategy} (h : ∀ entry ∈ buffer, Q entry.2) :
    (serve size taken takeMore buffer strategy).Each rules Q := by
  induction buffer generalizing strategy with
  | nil => trivial
  | cons entry buffer ih =>
    rw [serve]
    have hrest : ∀ e ∈ buffer, Q e.2 := fun e he => h e (List.mem_cons_of_mem _ he)
    refine ⟨h entry List.mem_cons_self, fun source hs => ?_⟩
    cases strategy.removeBest with
    | error cause => trivial
    | ok strategy' =>
      dsimp only
      split
      next => exact ⟨hs, ih hrest⟩
      next => exact more _ _ source hrest hs

theorem Ranking.buffer_perm_of_take {r r' : Ranking α} {benefit cost : Float32} {item : α}
    (h : r.take benefit cost item = (.ok (), r')) :
    r'.buffer.Perm ((benefit, item) :: r.buffer) := by
  rw [take] at h
  split at h
  next => cases h; exact Benefit.insert_perm Prod.fst (benefit, item) r.buffer
  next => cases h

mutual
theorem Supply.each_rank (hpredict : ∀ a, (predict a).Meets rules lenient fun _ => True) :
    {supply : Supply α} → supply.Each rules Q → (r : Ranking α) →
    (∀ entry ∈ r.buffer, Q entry.2) → (source : Source) → source.rules = rules →
    (supply.rank predict r source).Each rules Q
  | .done _, _, r, hr, source, hs => by
    rw [Supply.rank]
    exact ⟨hs, Ranking.each_serveAll r.taken hr⟩
  | .item value gauge next, h, r, hr, source, hs => by
    rw [Supply.rank]
    split
    next =>
      exact ⟨hs, Ranking.each_serve (fun r _ source hr hs =>
        Reply.each_rank hpredict (h.2 source hs) h.1 r hr) hr⟩
    next => exact Reply.each_rank hpredict (h.2 source hs) h.1 r hr
  | .stuck level gauge, h, r, hr, source, hs => by
    rw [Supply.rank]
    dsimp only
    split
    next => exact ⟨hs, Ranking.each_serve (fun _ _ _ _ _ => by trivial) hr⟩
    next => trivial
theorem Reply.each_rank (hpredict : ∀ a, (predict a).Meets rules lenient fun _ => True) :
    {reply : Reply α} → reply.Each rules Q → {value : α} → Q value → (r : Ranking α) →
    (∀ entry ∈ r.buffer, Q entry.2) → (reply.rank predict value r).Each rules Q
  | .rest supply source, h, value, hvalue, r, hr => by
    rw [Reply.rank]
    have hbenefit := hpredict value source h.1
    revert hbenefit
    rcases (predict value).runOn source with ⟨cause | benefit, source'⟩
    · exact fun _ => trivial
    · rintro ⟨hs', -⟩
      dsimp only
      rcases htake : r.take benefit (Ranking.costOf source'.takeTime.1) value with ⟨cause | ⟨⟩, r'⟩
      · trivial
      · refine Supply.each_rank hpredict h.2 r' (fun entry hentry => ?_) source'.takeTime.2
          (source'.rules_takeTime.trans hs')
        have hbuffered := (Ranking.buffer_perm_of_take htake).mem_iff.1 hentry
        rcases List.mem_cons.1 hbuffered with rfl | hmem
        · exact hvalue
        · exact hr entry hmem
  | .broken _ _ _, _, _, _, _, _ => by
    rw [Reply.rank]
    trivial
end

/-- What comes after an item, as a computation that may fail. -/
theorem Reply.meets_toDraws_each {next : Source → Reply α}
    (h : ∀ source, source.rules = rules → (next source).Each rules Q) :
    (Reply.toDraws next).Meets rules True fun s => s.Each rules Q := by
  intro source hs
  have heach := h source hs
  simp only [Reply.toDraws, Draws.runOn, ExceptT.run, StateT.run]
  revert heach
  cases next source with
  | rest supply source' => exact fun heach => heach
  | broken cause left source' => exact fun _ => trivial

end Equational
