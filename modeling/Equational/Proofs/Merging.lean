import Equational.Proofs.Codec
import Equational.Proofs.Forest

/-!
# Merged tables

A graph takes the records of another one to the end of its table, with the numbers of records moved
up and the ids of leaves left alone. Records may be shared, out of order and out of reach on both
sides. The argument is about records, not about roots: in a well-formed table without circles every
node stores a term (`IsFormed.wellFounded_iff`), an old node keeps its term since its records are
kept, and a copied node has the term of the original since the copies refer to copies.
-/

namespace Equational

namespace TermGraph

variable {g other : TermGraph} {node : Node}

/-! ### Tables without circles -/

/-- No record is reached from itself exactly if every node of the table stores a term. -/
theorem IsFormed.wellFounded_iff (formed : g.IsFormed) :
    WellFounded g.Refers ↔ ∀ node, g.holds node = true → ∃ t, g.Stores node t := by
  constructor
  · intro acyclic node held
    exact exists_stores formed.args held fun index _ => acyclic.apply index
  · intro stores
    refine ⟨fun index => ?_⟩
    by_cases held : g.holds (.func index) = true
    · obtain ⟨t, ht⟩ := stores _ held
      exact ht.acc
    · -- Beyond the end of the table there is nothing to refer to.
      refine ⟨index, ?_⟩
      rintro j ⟨r, found, -⟩
      exact absurd (holds_of_found found) held

theorem IsFormed.stores_termAt (formed : g.IsFormed) (acyclic : WellFounded g.Refers)
    (held : g.holds node = true) : g.Stores node (g.termAt node) := by
  obtain ⟨t, ht⟩ := formed.wellFounded_iff.1 acyclic node held
  rw [ht.termAt_eq]
  exact ht

/-! ### Copies -/

theorem IsFormed.absorb (formed : g.IsFormed) (formed' : other.IsFormed) :
    (g.absorb other).2.IsFormed := by
  by_cases root : other.root.kind = .func
  · obtain ⟨records, allowed⟩ := isFormed_iff.1 formed
    obtain ⟨records', allowed'⟩ := isFormed_iff.1 formed'
    have known : other.IsOf .plain := ⟨records', allowed', fun leaf => absurd root leaf⟩
    refine isFormed_iff.2 ⟨(records.absorb known).1, ?_⟩
    rw [root_absorb]
    exact allowed.mono (size_le_absorb g other)
  · rw [absorb_of_leaf (Node.kind_ne_func_iff.1 root)]
    exact formed

theorem IsFormed.stores_copy (formed' : other.IsFormed) (acyclic' : WellFounded other.Refers)
    (root : other.root.kind = .func) (held : other.holds node = true) :
    (g.absorb other).2.Stores (node.offset g.size) (other.termAt node) := by
  obtain ⟨index, hroot⟩ := Node.kind_eq_func_iff.1 root
  apply (formed'.stores_termAt acyclic' held).offset
  intro j r found
  exact getElem?_absorb hroot found

theorem IsFormed.stores_absorb (formed : g.IsFormed) (acyclic : WellFounded g.Refers)
    (held : g.holds node = true) : (g.absorb other).2.Stores node (g.termAt node) :=
  (formed.stores_termAt acyclic held).mono (keepsFrom_absorb g other)

theorem IsFormed.wellFounded_absorb (formed : g.IsFormed) (formed' : other.IsFormed)
    (acyclic : WellFounded g.Refers) (acyclic' : WellFounded other.Refers) :
    WellFounded (g.absorb other).2.Refers := by
  apply (formed.absorb formed').wellFounded_iff.2
  intro node held
  rcases holds_absorb_cases held with held | ⟨index, node₀, root, held₀, rfl⟩
  · exact ⟨_, formed.stores_absorb acyclic held⟩
  · exact ⟨_, formed'.stores_copy acyclic' (by rw [root]; rfl) held₀⟩

end TermGraph

namespace SharedGraph

variable {a b : SharedGraph}

theorem absorb_of_leaf (leaf : b.graph.root.kind ≠ .func) :
    a.absorb b.graph = (b.graph.root, a) := by
  rw [absorb, TermGraph.absorb_of_leaf (Node.kind_ne_func_iff.1 leaf)]
  simp only [leaf, if_false]

theorem absorb_of_func (root : b.graph.root.kind = .func) :
    a.absorb b.graph = ((a.graph.absorb b.graph).1, own (a.graph.absorb b.graph).2) := by
  obtain ⟨index, hroot⟩ := Node.kind_eq_func_iff.1 root
  rw [absorb, TermGraph.absorb_of_func hroot, hroot]
  rfl

theorem graph_absorb (a b : SharedGraph) :
    (a.absorb b.graph).1 = (a.graph.absorb b.graph).1 ∧
      (a.absorb b.graph).2.graph = (a.graph.absorb b.graph).2 := by
  by_cases root : b.graph.root.kind = .func
  · rw [absorb_of_func root]
    exact ⟨rfl, rfl⟩
  · rw [absorb_of_leaf root, TermGraph.absorb_of_leaf (Node.kind_ne_func_iff.1 root)]
    exact ⟨rfl, rfl⟩

/-- **Merging keeps every term.** Take two well-formed tables without circles. After the records of
one are copied to the other, the node that is told stores what the root of the copied graph stores,
and so does the copy of every other node. The nodes there were store what they did, the root has not
moved, and the table is again well-formed and without circles. A leaf changes nothing and is told
as it is. -/
theorem merging_keeps_terms (formed : a.graph.IsFormed) (formed' : b.graph.IsFormed)
    (acyclic : WellFounded a.graph.Refers) (acyclic' : WellFounded b.graph.Refers) :
    (b.graph.Stores b.graph.root b.term ∧
        (a.absorb b.graph).2.graph.Stores (a.absorb b.graph).1 b.term) ∧
      (b.graph.root.kind = .func → ∀ node, b.graph.holds node = true →
        (a.absorb b.graph).2.graph.Stores (node.offset a.size) (b.graph.termAt node)) ∧
      (∀ node, a.graph.holds node = true →
        a.graph.Stores node (a.graph.termAt node) ∧
          (a.absorb b.graph).2.graph.Stores node (a.graph.termAt node)) ∧
      (a.absorb b.graph).2.graph.root = a.graph.root ∧
      (a.absorb b.graph).2.graph.IsFormed ∧ WellFounded (a.absorb b.graph).2.graph.Refers ∧
      (b.graph.root.kind ≠ .func → a.absorb b.graph = (b.graph.root, a)) := by
  obtain ⟨hnode, hgraph⟩ := graph_absorb a b
  have stored : b.graph.Stores b.graph.root b.term := formed'.stores_termAt acyclic' formed'.root
  rw [hnode, hgraph]
  refine ⟨⟨stored, ?_⟩, ?_, ?_, ?_, ?_, ?_, absorb_of_leaf⟩
  · exact (TermGraph.settled_absorb (Nat.zero_le _) stored).stores
  · intro root node held
    exact formed'.stores_copy acyclic' root held
  · intro node held
    exact ⟨formed.stores_termAt acyclic held, formed.stores_absorb acyclic held⟩
  · exact TermGraph.root_absorb a.graph b.graph
  · exact formed.absorb formed'
  · exact formed.wellFounded_absorb formed' acyclic acyclic'

/-- The table of `f(g(x), g(x))` has a shared record after the one that shares it, and the table of
`f(x, x)` has a record out of reach. -/
theorem merging_keeps_terms_doubled :
    ((Expression.doubled.stored.absorb Expression.twice.graph).2.graph.Stores (.func 3)
        (.app 0 [.var 0, .var 0]) ∧
      (Expression.doubled.stored.absorb Expression.twice.graph).2.graph.Stores (.func 2)
        (.app 1 [.var 7]) ∧
      (Expression.doubled.stored.absorb Expression.twice.graph).2.graph.Stores (.func 0)
        (.app 0 [.app 1 [.var 0], .app 1 [.var 0]])) ∧
      WellFounded (Expression.doubled.stored.absorb Expression.twice.graph).2.graph.Refers := by
  have acyclic : WellFounded Expression.doubled.graph.Refers := by
    refine Subrelation.wf (r := fun j index => 2 - j < 2 - index) ?_ (measure fun i => 2 - i).wf
    rintro j index ⟨r, found, hj⟩
    rcases index with _ | _ | index
    · obtain rfl : ⟨0, [.func 1, .func 1]⟩ = r := Option.some.inj found
      obtain rfl : j = 1 := by simpa using hj
      decide
    · obtain rfl : ⟨1, [.free 0]⟩ = r := Option.some.inj found
      simp at hj
    · cases found
  have acyclic' : WellFounded Expression.twice.graph.Refers :=
    TermGraph.IsOrdered.wellFounded (by decide)
  obtain ⟨⟨-, root⟩, copies, kept, -, -, wellFounded, -⟩ :=
    merging_keeps_terms (a := Expression.doubled.stored) (b := Expression.twice.stored)
      (by decide) (by decide) acyclic acyclic'
  exact ⟨⟨root, copies rfl (.func 0) rfl, (kept (.func 0) rfl).2⟩, wellFounded⟩

end SharedGraph

end Equational
