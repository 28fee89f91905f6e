import Equational.Proofs.Successor

/-!
# Driving a cursor

Users of a cursor ask whether it is valid, take the state that it stands on and move it on,
and so to its end. Between two moves others may draw on the same source.

`Cursor.Exhausts` is about all ways to do this: none of them fails, each comes to an end, and
what was taken on the way satisfies some condition. This is what `Supply.Runs` says of the
supply of the cursor. `Cursor.Reads` is about one way to do it, where it is known what else
happens to the source while the cursor stands on a state. It leads to the end or to a violation.
-/

namespace Equational

variable {rules : List Rule}

namespace Cursor

/-- Driven to its end, the cursor never fails, and the states that were taken satisfy `post`,
whatever the source is at each move, as long as it has the rules. -/
inductive Exhausts (rules : List Rule) : Cursor → (List ProofState → Prop) → Prop
  | ended {c : Cursor} {post : List ProofState → Prop} (invalid : c.isValid = false)
      (nothing : post []) : Exhausts rules c post
  | moves {c : Cursor} {post : List ProofState → Prop} {t : ProofState}
      (next : Source → Cursor) (after : Source → Source) (valid : c.isValid = true)
      (current : c.get = .ok t)
      (moved : ∀ source, source.rules = rules →
        (advance.runOn c).run source = ((.ok (), next source), after source))
      (fixed : ∀ source, source.rules = rules → (after source).rules = rules)
      (later : ∀ source, source.rules = rules →
        Exhausts rules (next source) fun rest => post (t :: rest)) : Exhausts rules c post

/-- Driven from the source on, the cursor gives just these states, and then comes to its end or, if
`ended` is `false`, meets a violation. While it stands on a state, the source is changed by
`between`. -/
inductive Reads (between : ProofState → Source → Source) :
    Cursor → Source → List ProofState → (ended : Bool) → Prop
  | ended {c : Cursor} {source : Source} (invalid : c.isValid = false) :
      Reads between c source [] true
  | refused {c : Cursor} {source : Source} {cause : Violation} (valid : c.isValid = true)
      (current : c.get = .error cause) : Reads between c source [] false
  | broken {c c' : Cursor} {source source' : Source} {t : ProofState} {cause : Violation}
      (valid : c.isValid = true) (current : c.get = .ok t)
      (moved : (advance.runOn c).run (between t source) = ((.error cause, c'), source')) :
      Reads between c source [t] false
  | next {c c' : Cursor} {source source' : Source} {t : ProofState} {rest : List ProofState}
      {ended : Bool} (valid : c.isValid = true) (current : c.get = .ok t)
      (moved : (advance.runOn c).run (between t source) = ((.ok (), c'), source'))
      (later : Reads between c' source' rest ended) : Reads between c source (t :: rest) ended

/-- Driven from the source on, the cursor meets a violation. -/
def Fails (between : ProofState → Source → Source) (c : Cursor) (source : Source) : Prop :=
  ∃ items, c.Reads between source items false

/-- What a cursor on an item does when it is moved on. -/
theorem run_advance_rest {kind : CursorKind} {value : ProofState} {gauge : Gauge}
    {next : Source → Reply ProofState} {source source' : Source} {supply : Supply ProofState}
    (h : next source = .rest supply source') :
    (advance.runOn ⟨kind, .item value gauge next⟩).run source =
      ((.ok (), ⟨kind, supply⟩), source') := by
  rw [run_advance_item, h]

theorem exists_item {c : Cursor} {t : ProofState} (current : c.get = .ok t) :
    ∃ gauge next, c.supply = .item t gauge next := by
  obtain ⟨kind, supply⟩ := c
  cases supply with
  | done gauge => cases current
  | stuck level gauge => cases current
  | item value gauge next =>
    obtain rfl : value = t := Except.ok.inj current
    exact ⟨gauge, next, rfl⟩

theorem exists_rest_of_advance {c c' : Cursor} {source source' : Source}
    (moved : (advance.runOn c).run source = ((.ok (), c'), source')) :
    ∃ value gauge next, c.supply = .item value gauge next ∧
      next source = .rest c'.supply source' := by
  obtain ⟨kind, supply⟩ := c
  cases supply with
  | done gauge => cases moved
  | stuck level gauge => cases moved
  | item value gauge next =>
    refine ⟨value, gauge, next, rfl, ?_⟩
    rw [run_advance_item] at moved
    revert moved
    cases next source with
    | broken cause left source'' =>
      intro moved
      cases moved
    | rest supply source'' =>
      intro moved
      cases moved
      rfl

theorem Exhausts.mono {c : Cursor} {post post' : List ProofState → Prop}
    (h : c.Exhausts rules post) (imp : ∀ l, post l → post' l) : c.Exhausts rules post' := by
  induction h generalizing post' with
  | ended invalid nothing => exact .ended invalid (imp [] nothing)
  | @moves c post t next after valid current moved fixed _ ih =>
    refine .moves next after valid current moved fixed ?_
    intro source hs
    exact ih source hs fun rest => imp (t :: rest)

theorem Exhausts.of_reads {c : Cursor} {post : List ProofState → Prop}
    (h : c.Exhausts rules post) {between : ProofState → Source → Source}
    (fixed : ∀ t source, source.rules = rules → (between t source).rules = rules)
    {source : Source} (hs : source.rules = rules) {items : List ProofState} {ended : Bool}
    (reads : c.Reads between source items ended) : ended = true ∧ post items := by
  induction h generalizing source items with
  | ended invalid nothing =>
    cases reads with
    | ended _ => exact ⟨rfl, nothing⟩
    | refused valid _ => exact absurd (invalid.symm.trans valid) (by decide)
    | broken valid _ _ => exact absurd (invalid.symm.trans valid) (by decide)
    | next valid _ _ _ => exact absurd (invalid.symm.trans valid) (by decide)
  | @moves c post t next after valid current moved kept _ ih =>
    cases reads with
    | ended invalid => exact absurd (invalid.symm.trans valid) (by decide)
    | refused _ current' => cases current.symm.trans current'
    | broken _ current' moved' =>
      obtain rfl := Except.ok.inj (current.symm.trans current')
      cases (moved _ (fixed _ _ hs)).symm.trans moved'
    | next _ current' moved' later =>
      obtain rfl := Except.ok.inj (current.symm.trans current')
      cases (moved _ (fixed _ _ hs)).symm.trans moved'
      exact ih _ (fixed _ _ hs) (kept _ (fixed _ _ hs)) later

theorem Exhausts.not_fails {c : Cursor} {post : List ProofState → Prop}
    (h : c.Exhausts rules post) {between : ProofState → Source → Source}
    (fixed : ∀ t source, source.rules = rules → (between t source).rules = rules)
    {source : Source} (hs : source.rules = rules) : ¬c.Fails between source := by
  rintro ⟨items, reads⟩
  cases (h.of_reads fixed hs reads).1

end Cursor

/-- The source after the next item was asked for. -/
def Reply.source {α : Type} : Reply α → Source
  | .rest _ source => source
  | .broken _ _ source => source

/-- Where no violation may end a reading, there is a rest. -/
theorem Reply.Runs.eq_rest {α : Type} {reply : Reply α} {post : List α → Prop}
    (h : reply.Runs rules False post) :
    reply = .rest reply.supply reply.source ∧ reply.source.rules = rules ∧
      reply.supply.Runs rules False post := by
  cases reply with
  | rest supply source => exact ⟨rfl, h⟩
  | broken cause left source => exact h.elim

mutual
theorem Supply.Runs.exhausts (kind : CursorKind) :
    {supply : Supply ProofState} → {post : List ProofState → Prop} →
    supply.Runs rules False post → (Cursor.mk kind supply).Exhausts rules post
  | .done _, _, h => .ended rfl h
  | .item value gauge next, post, h => by
    refine .moves (fun source => ⟨kind, (next source).supply⟩) (fun source => (next source).source)
      rfl rfl ?_ ?_ ?_
    · intro source hs
      exact Cursor.run_advance_rest (h source hs).eq_rest.1
    · intro source hs
      exact (h source hs).eq_rest.2.1
    · intro source hs
      exact Reply.Runs.exhausts kind (h source hs)
  | .stuck _ _, _, h => h.elim
theorem Reply.Runs.exhausts (kind : CursorKind) :
    {reply : Reply ProofState} → {post : List ProofState → Prop} →
    reply.Runs rules False post → (Cursor.mk kind reply.supply).Exhausts rules post
  | .rest _ _, _, h => Supply.Runs.exhausts kind h.2
  | .broken _ _ _, _, h => h.elim
end

/-- Driven on from what came after an item. -/
def Reply.Reads (kind : CursorKind) (between : ProofState → Source → Source) :
    Reply ProofState → List ProofState → Bool → Prop
  | .rest supply source, items, ended => (Cursor.mk kind supply).Reads between source items ended
  | .broken _ _ _, items, ended => items = [] ∧ ended = false

theorem Cursor.reads_item {between : ProofState → Source → Source} {kind : CursorKind}
    {value : ProofState} {gauge : Gauge} {next : Source → Reply ProofState} {source : Source}
    {items : List ProofState} {ended : Bool}
    (h : (next (between value source)).Reads kind between items ended) :
    (Cursor.mk kind (.item value gauge next)).Reads between source (value :: items) ended := by
  have hrun := run_advance_item kind value gauge next (between value source)
  revert h hrun
  cases next (between value source) with
  | rest supply source' =>
    intro h hrun
    exact .next rfl rfl hrun h
  | broken cause left source' =>
    rintro ⟨rfl, rfl⟩ hrun
    exact .broken rfl rfl hrun

mutual
theorem Supply.Runs.fails {between : ProofState → Source → Source}
    (fixed : ∀ t source, source.rules = rules → (between t source).rules = rules)
    (kind : CursorKind) :
    {supply : Supply ProofState} → {post : List ProofState → Prop} →
    supply.Runs rules True post → (∀ items, ¬post items) →
    ∀ source : Source, source.rules = rules → (Cursor.mk kind supply).Fails between source
  | .done _, _, h, never, _, _ => absurd h (never [])
  | .item value gauge next, _, h, never, source, hs => by
    obtain ⟨items, hitems⟩ :=
      Reply.Runs.fails fixed kind (h _ (fixed value source hs)) (fun _ => never _)
    exact ⟨value :: items, Cursor.reads_item hitems⟩
  | .stuck _ _, _, _, _, _, _ => ⟨[], .refused rfl rfl⟩
theorem Reply.Runs.fails {between : ProofState → Source → Source}
    (fixed : ∀ t source, source.rules = rules → (between t source).rules = rules)
    (kind : CursorKind) :
    {reply : Reply ProofState} → {post : List ProofState → Prop} →
    reply.Runs rules True post → (∀ items, ¬post items) →
    ∃ items, reply.Reads kind between items false
  | .rest _ _, _, h, never => Supply.Runs.fails fixed kind h.2 never _ h.1
  | .broken _ _ _, _, _, _ => ⟨[], rfl, rfl⟩
end

theorem Cursor.Exhausts.runs {c : Cursor} {post : List ProofState → Prop}
    (h : c.Exhausts rules post) : c.supply.Runs rules False post := by
  induction h with
  | @ended c post invalid nothing =>
    obtain ⟨kind, supply⟩ := c
    cases supply with
    | done gauge => exact nothing
    | item value gauge next => cases invalid
    | stuck level gauge => cases invalid
  | @moves c post t next after valid current moved fixed _ ih =>
    obtain ⟨gauge, rest, hitem⟩ := exists_item current
    rw [hitem]
    intro source hs
    obtain ⟨value, gauge', rest', hitem', hrest⟩ := exists_rest_of_advance (moved source hs)
    rw [hitem] at hitem'
    cases hitem'
    rw [hrest]
    exact ⟨fixed source hs, ih source hs⟩

end Equational
