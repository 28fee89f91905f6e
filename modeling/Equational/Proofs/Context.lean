import Equational.Context
import Equational.Proofs.Draws
import Mathlib.Data.List.Nodup

/-!
# Contexts that can be built

A context is built from a draft to which symbols were added one at a time. So every symbol has
a name that is one word of the language of lines, no two symbols have the same name, and no
arity exceeds the limit. A symbol is then found under its own name.
-/

namespace Equational

namespace Text

/-- The characters of names are printable ones of the first half of ASCII and a little more. -/
theorem toNat_of_isNameChar {c : Char} (h : isNameChar c = true) :
    37 ≤ c.toNat ∧ c.toNat ≤ 122 := by
  rw [isNameChar, Bool.or_eq_true] at h
  rcases h with h | h
  · have hranges : (decide ('A'.val ≤ c.val ∧ c.val ≤ 'Z'.val) ||
        (decide ('a'.val ≤ c.val) && decide (c.val ≤ 'z'.val)) ||
        (decide ('0'.val ≤ c.val) && decide (c.val ≤ '9'.val))) = true := h
    simp only [Bool.or_eq_true, Bool.and_eq_true, decide_eq_true_eq, UInt32.le_iff_toNat_le]
      at hranges
    have hval : c.toNat = c.val.toNat := rfl
    have hcodes : 'A'.val.toNat = 65 ∧ 'Z'.val.toNat = 90 ∧ 'a'.val.toNat = 97 ∧
        'z'.val.toNat = 122 ∧ '0'.val.toNat = 48 ∧ '9'.val.toNat = 57 := by decide
    omega
  · have hsign : c ∈ ['+', '-', '*', '/', '.', '_', '?', '^', '%', '&'] := List.contains_iff_mem.1 h
    simp only [List.mem_cons, List.not_mem_nil, or_false] at hsign
    rcases hsign with rfl | rfl | rfl | rfl | rfl | rfl | rfl | rfl | rfl | rfl <;> decide

theorem isBlank_eq_false {c : Char} (h : isNameChar c = true) : isBlank c = false := by
  have hrange := toNat_of_isNameChar h
  rw [isBlank]
  simp only [Bool.or_eq_false_iff, Bool.and_eq_false_iff, decide_eq_false_iff_not,
    beq_eq_false_iff_ne]
  omega

theorem trimChars_eq_self {cs : List Char} (h : ∀ c ∈ cs, isNameChar c = true) :
    trimChars cs = cs := by
  have hdrop : ∀ cs : List Char, (∀ c ∈ cs, isNameChar c = true) → cs.dropWhile isBlank = cs := by
    intro cs h
    cases cs with
    | nil => rfl
    | cons c cs =>
      have hc := isBlank_eq_false (h c List.mem_cons_self)
      rw [List.dropWhile_cons_of_neg (by simp [hc])]
  rw [trimChars, hdrop cs h, hdrop cs.reverse fun c hc => h c (List.mem_reverse.1 hc),
    List.reverse_reverse]

theorem trim_eq_self {name : String} (h : ∀ c ∈ name.toList, isNameChar c = true) :
    trim name = name := by
  rw [trim, trimChars_eq_self h, String.ofList_toList]

end Text

/-! ### Drafts -/

/-- The drafts that come from an empty one by changes that succeed. -/
inductive Draft.Written : Draft → Prop
  | new (name : String) : Written { name }
  | limit {d : Draft} (written : Written d) (maxArity : Nat) : Written { d with maxArity }
  | define {d d' : Draft} {name : String} {arity : Nat} (written : Written d)
      (ok : d.define name arity = .ok d') : Written d'
  | addAxiom {d : Draft} (written : Written d) (text : String) : Written (d.addAxiom text)

/-- A text that the reader of lines takes as one name. -/
def IsName (name : String) : Prop := name.toList ≠ [] ∧ ∀ c ∈ name.toList, Text.isNameChar c = true

instance {name : String} : Decidable (IsName name) :=
  @instDecidableAnd _ _ _ (List.decidableBAll _ name.toList)

namespace Signature

variable {s : Signature}

structure IsNamed (s : Signature) : Prop where
  isName : ∀ symbol ∈ s.symbols, IsName symbol.name
  distinct : (s.symbols.map Symbol.name).Nodup

theorem declares_iff {id arity : Nat} :
    s.declares id arity = true ↔ ∃ symbol, s.get? id = some symbol ∧ symbol.arity = arity := by
  rw [declares, arity?, beq_iff_eq, Option.map_eq_some_iff]

theorem mem_constants {symbol : Nat} :
    symbol ∈ s.constants ↔ s.declares symbol 0 = true := by
  rw [constants, idsWhere, List.mem_filter, List.mem_range, declares, arity?, get?, size]
  cases hget : s.symbols[symbol]? with
  | none => simp
  | some found => simp [(List.getElem?_eq_some_iff.1 hget).1]

theorem find?_eq_none_iff {name : String} :
    s.find? name = none ↔ ∀ symbol ∈ s.symbols, symbol.name ≠ name := by
  rw [find?, List.findIdx?_eq_none_iff]
  simp

theorem exists_get?_of_find? {name : String} {id : Nat} (h : s.find? name = some id) :
    ∃ symbol, s.get? id = some symbol := by
  obtain ⟨hlt, -⟩ := List.findIdx?_eq_some_iff_getElem.1 h
  exact ⟨_, List.getElem?_eq_getElem hlt⟩

theorem IsNamed.find?_name (named : s.IsNamed) {id : Nat} {symbol : Symbol}
    (found : s.get? id = some symbol) : s.find? symbol.name = some id := by
  obtain ⟨hlt, rfl⟩ := List.getElem?_eq_some_iff.1 found
  rw [find?, List.findIdx?_eq_some_iff_getElem]
  refine ⟨hlt, by simp, ?_⟩
  intro j hj hsame
  have hdistinct := List.pairwise_map.1 named.distinct
  exact List.pairwise_iff_getElem.1 hdistinct j id _ hlt hj (by simpa using hsame)

end Signature

namespace Draft

variable {d : Draft}

theorem signature_of_define {d' : Draft} {name : String} {arity : Nat}
    (ok : d.define name arity = .ok d') :
    IsName (Text.trim name) ∧ d.signature.find? (Text.trim name) = none ∧
      d'.signature = ⟨d.signature.symbols ++ [⟨Text.trim name, arity⟩]⟩ := by
  rw [define] at ok
  split at ok
  next => cases ok
  next hname =>
    rw [Bool.or_eq_true, not_or, Bool.not_eq_true', Bool.not_eq_false] at hname
    rw [Signature.define?] at ok
    cases hfind : d.signature.find? (Text.trim name) with
    | some id => rw [hfind] at ok; cases ok
    | none =>
      rw [hfind] at ok
      obtain rfl := Except.ok.inj ok
      refine ⟨⟨?_, List.all_eq_true.1 hname.2⟩, rfl, rfl⟩
      intro hempty
      have hname' : Text.trim name = "" := String.toList_eq_nil_iff.1 hempty
      exact hname.1 (by rw [hname']; rfl)

theorem Written.isNamed (written : d.Written) : d.signature.IsNamed := by
  induction written with
  | new name => exact ⟨nofun, List.nodup_nil⟩
  | limit _ _ ih => exact ih
  | addAxiom _ _ ih => exact ih
  | define _ ok ih =>
    obtain ⟨hname, hnew, hsignature⟩ := signature_of_define ok
    rw [hsignature]
    constructor
    · intro symbol hsymbol
      rcases List.mem_append.1 hsymbol with hsymbol | hsymbol
      · exact ih.isName symbol hsymbol
      · obtain rfl := List.mem_singleton.1 hsymbol
        exact hname
    · rw [List.map_append, List.nodup_append]
      refine ⟨ih.distinct, List.nodup_singleton _, ?_⟩
      rintro other hother _ hlast rfl
      obtain ⟨symbol, hsymbol, rfl⟩ := List.mem_map.1 hother
      exact Signature.find?_eq_none_iff.1 hnew symbol hsymbol (List.mem_singleton.1 hlast)

theorem of_build_ok {label : Nat} {ctx : Context} (ok : d.build label = .ok ctx) :
    ctx = ⟨d, label⟩ ∧ ∀ symbol ∈ d.signature.symbols, symbol.arity ≤ d.maxArity := by
  rw [build] at ok
  split at ok
  next => cases ok
  next =>
    split at ok
    next => cases ok
    next hlimit =>
      refine ⟨(Except.ok.inj ok).symm, fun symbol hsymbol => ?_⟩
      simpa using List.find?_eq_none.1 hlimit symbol hsymbol

end Draft

/-! ### Contexts -/

namespace Context

variable {ctx : Context}

/-- The contexts that drafts become. -/
def Built (ctx : Context) : Prop := ∃ (d : Draft) (label : Nat), d.Written ∧ d.build label = .ok ctx

theorem Built.draft (built : ctx.Built) :
    ctx.signature.IsNamed ∧ ∀ symbol ∈ ctx.signature.symbols, symbol.arity ≤ ctx.maxArity := by
  obtain ⟨d, label, written, ok⟩ := built
  obtain ⟨rfl, hlimit⟩ := Draft.of_build_ok ok
  exact ⟨written.isNamed, hlimit⟩

theorem Built.withSymbol {larger : Context} {label arity : Nat} {name : String}
    (built : ctx.Built) (ok : ctx.withSymbol label name arity = .ok larger) : larger.Built := by
  obtain ⟨d, _, written, hbuild⟩ := built
  obtain ⟨rfl, -⟩ := Draft.of_build_ok hbuild
  obtain ⟨d', hdefine, ok⟩ := bind_eq_ok.1 ok
  exact ⟨d', label, written.define hdefine, ok⟩

theorem Built.arity_le (built : ctx.Built) {id arity : Nat}
    (declared : ctx.signature.declares id arity = true) : arity ≤ ctx.maxArity := by
  obtain ⟨symbol, hget, rfl⟩ := Signature.declares_iff.1 declared
  exact built.draft.2 symbol (List.mem_of_getElem? hget)

theorem Built.find?_name (built : ctx.Built) {id : Nat} {symbol : Symbol}
    (found : ctx.signature.get? id = some symbol) : ctx.find? symbol.name = some id := by
  have hname := built.draft.1.isName symbol (List.mem_of_getElem? found)
  rw [find?, Text.trim_eq_self hname.2]
  exact built.draft.1.find?_name found

end Context

end Equational
