import Equational.Stopping

/-!
# The order of benefits is that of the floats

`Benefit.rank` reads the order of two benefits off their bits. Here it is compared with the
order of floats as numbers: of two benefits that are numbers the smaller one comes first, a
negative zero comes before a positive one, and what is not a number comes before all else.

A float is unpacked into a sign, a mantissa and an exponent. Where the mantissa is as long as
the format has it, comparing exponents and then mantissas is comparing the integers that one
gets by writing the mantissa behind the exponent, and these are the bits without the sign.
-/

namespace Equational.Benefit

open Float.Model (Format UnpackedFloat)
open Float.Model.UnpackedFloat (Sign)

/-- The first benefit is less than the second one. -/
def Below (a b : Float32) : Prop :=
  b.isNaN = false ∧ (a.isNaN = true ∨ a < b ∨ a.toBits = 0x80000000 ∧ b.toBits = 0)

/-- The unpacked float has this place among the floats that are numbers. Both zeros have the same
place. -/
inductive Stands : UnpackedFloat → Int → Prop
  | zero (s : Sign) : Stands (.zero s) 0
  | infinity (s : Sign) : Stands (.infinity s) (s.apply 0x7f800000)
  | finite (s : Sign) (m : Nat) (e : Int) (pos : 0 < m) (least : -149 ≤ e) (short : m < 0x1000000)
      (long : -149 < e → 0x800000 ≤ m) (bounded : (e + 149) * 0x800000 + m < 0x7f800000) :
      Stands (.finite s m e pos) (s.apply ((e + 149) * 0x800000 + m))

theorem Stands.of_place {s : Sign} {m : Nat} {e : Int} {pos : 0 < m} {place : Nat}
    (least : -149 ≤ e) (short : m < 0x1000000) (long : -149 < e → 0x800000 ≤ m)
    (bounded : place < 0x7f800000) (hplace : (place : Int) = (e + 149) * 0x800000 + m) :
    Stands (.finite s m e pos) (s.apply place) := by
  rw [hplace]
  exact .finite s m e pos least short long (by omega)

/-- Writing the mantissa behind the exponent keeps the order by exponent and mantissa. -/
theorem compare_finite_eq_lt {m n : Nat} {e f : Int} (hm : m < 0x1000000) (hn : n < 0x1000000)
    (he : -149 ≤ e) (hf : -149 ≤ f) (hme : -149 < e → 0x800000 ≤ m)
    (hnf : -149 < f → 0x800000 ≤ n) :
    ((compare e f).then (compare m n) = .lt ↔
      (e + 149) * 0x800000 + m < (f + 149) * 0x800000 + n) ∧
    ((compare e f).then (compare m n) = .gt ↔
      (f + 149) * 0x800000 + n < (e + 149) * 0x800000 + m) := by
  rw [Ordering.then_eq_lt, Ordering.then_eq_gt, Int.compare_eq_lt, Int.compare_eq_gt,
    Std.compare_eq_iff_eq, Nat.compare_eq_lt, Nat.compare_eq_gt]
  omega

/-- Floats that are numbers are compared by their places. -/
theorem Stands.compare_eq_lt {u v : UnpackedFloat} {a b : Int} (hu : Stands u a)
    (hv : Stands v b) : u.compare v = some .lt ↔ a < b := by
  -- unless both are finite and of the same sign, the signs and the kinds decide
  cases hu with
  | zero s =>
    cases hv with
    | zero s' => exact iff_of_false nofun (Int.lt_irrefl 0)
    | infinity s' =>
      cases s' with
      | negative => exact iff_of_false nofun (by decide)
      | positive => exact iff_of_true rfl (by decide)
    | finite s' n f =>
      cases s' with
      | negative => exact iff_of_false nofun (show ¬ (0 : Int) < -((f + 149) * _ + n) by omega)
      | positive => exact iff_of_true rfl (show (0 : Int) < (f + 149) * _ + n by omega)
  | infinity s =>
    cases s with
    | negative =>
      cases hv with
      | zero s' => exact iff_of_true rfl (by decide)
      | infinity s' =>
        cases s' with
        | negative => exact iff_of_false nofun (by decide)
        | positive => exact iff_of_true rfl (by decide)
      | finite s' n f =>
        cases s' with
        | negative => exact iff_of_true rfl (show -0x7f800000 < -((f + 149) * _ + n) by omega)
        | positive => exact iff_of_true rfl (show -0x7f800000 < (f + 149) * _ + n by omega)
    | positive =>
      cases hv with
      | zero s' => exact iff_of_false nofun (by decide)
      | infinity s' => cases s' <;> exact iff_of_false nofun (by decide)
      | finite s' n f =>
        cases s' with
        | negative => exact iff_of_false nofun (show ¬ 0x7f800000 < -((f + 149) * _ + n) by omega)
        | positive => exact iff_of_false nofun (show ¬ 0x7f800000 < (f + 149) * _ + n by omega)
  | finite s m e pos least short long =>
    cases s with
    | negative =>
      cases hv with
      | zero s' => exact iff_of_true rfl (show -((e + 149) * _ + m) < 0 by omega)
      | infinity s' =>
        cases s' with
        | negative => exact iff_of_false nofun (show ¬ -((e + 149) * _ + m) < -0x7f800000 by omega)
        | positive => exact iff_of_true rfl (show -((e + 149) * _ + m) < 0x7f800000 by omega)
      | finite s' n f _ least' short' long' =>
        cases s' with
        | negative =>
          have hcompare := compare_finite_eq_lt short short' least least' long long'
          show some ((compare e f).then (compare m n)).swap = some .lt ↔
            -((e + 149) * 0x800000 + (m : Int)) < -((f + 149) * 0x800000 + n)
          rw [Option.some_inj, Ordering.swap_eq_lt, hcompare.2, Int.neg_lt_neg_iff]
        | positive =>
          exact iff_of_true rfl (show -((e + 149) * _ + m) < (f + 149) * _ + n by omega)
    | positive =>
      cases hv with
      | zero s' => exact iff_of_false nofun (show ¬ (e + 149) * _ + m < 0 by omega)
      | infinity s' =>
        cases s' with
        | negative => exact iff_of_false nofun (show ¬ (e + 149) * _ + m < -0x7f800000 by omega)
        | positive => exact iff_of_true rfl (show (e + 149) * _ + m < 0x7f800000 by omega)
      | finite s' n f _ least' short' long' =>
        cases s' with
        | negative =>
          exact iff_of_false nofun (show ¬ (e + 149) * _ + m < -((f + 149) * _ + n) by omega)
        | positive =>
          have hcompare := compare_finite_eq_lt short short' least least' long long'
          show some ((compare e f).then (compare m n)) = some .lt ↔ _
          rw [Option.some_inj, hcompare.1]
          rfl

/-- The bits of a float as an integer with a sign. -/
def signed (bits : Nat) : Int :=
  if bits < 0x80000000 then bits else -((bits - 0x80000000 : Nat) : Int)

theorem signed_eq_apply {bits : Nat} (h : bits < 0x100000000) (sign : BitVec 1)
    (hs : sign.toNat = bits / 0x80000000 % 2) :
    signed bits = (Sign.ofBitVec sign).apply ((bits % 0x80000000 : Nat) : Int) := by
  have hpositive : sign = 0#1 ↔ bits / 0x80000000 % 2 = 0 := by rw [← hs, ← BitVec.toNat_inj]; rfl
  unfold signed Sign.ofBitVec
  by_cases hlow : bits < 0x80000000
  · rw [if_pos hlow, if_pos (hpositive.2 (by omega))]
    simp only [Sign.apply]
    omega
  · have hnegative : bits / 0x80000000 % 2 ≠ 0 := by omega
    rw [if_neg hlow, if_neg (fun hzero => hnegative (hpositive.1 hzero))]
    simp only [Sign.apply]
    omega

/-! ### The fields of a float -/

theorem toNat_mantissa (b : BitVec 32) :
    (@UnpackedFloat.unpackMantissa Format.binary32 b).toNat = b.toNat % 0x800000 := by
  rfl

theorem toNat_exponent (b : BitVec 32) :
    (@UnpackedFloat.unpackExponent Format.binary32 b).toNat = b.toNat / 0x800000 % 0x100 := by
  show (b.toNat >>> 23) % 0x100 = _
  rw [Nat.shiftRight_eq_div_pow]

theorem toNat_sign (b : BitVec 32) :
    (@UnpackedFloat.unpackSign Format.binary32 b).toNat = b.toNat / 0x80000000 % 2 := by
  show (b.toNat >>> 31) % 2 = _
  rw [Nat.shiftRight_eq_div_pow]

theorem toNat_append_one (mantissa : BitVec 23) :
    (1#1 ++ mantissa).toNat = 0x800000 + mantissa.toNat := by
  rw [BitVec.toNat_append, ← Nat.shiftLeft_add_eq_or_of_lt mantissa.isLt]
  rfl

/-- The place of a float that is a number is given by its bits. -/
theorem stands_unpack (b : BitVec 32)
    (number : (UnpackedFloat.unpack Format.binary32 b).isNaN = false) :
    Stands (UnpackedFloat.unpack Format.binary32 b) (signed b.toNat) := by
  have hm := toNat_mantissa b
  have he := toNat_exponent b
  have hlong := toNat_append_one (@UnpackedFloat.unpackMantissa Format.binary32 b)
  have hbias : (Format.binary32.exponentBias : Int) = 127 := rfl
  have hbits : b.toNat % 0x80000000 =
      (b.toNat / 0x800000 % 0x100) * 0x800000 + b.toNat % 0x800000 := by omega
  rw [signed_eq_apply b.isLt _ (toNat_sign b), hbits]
  unfold UnpackedFloat.unpack at number ⊢
  dsimp only at number ⊢
  by_cases hones : @UnpackedFloat.unpackExponent Format.binary32 b = -1#8
  · by_cases hzero : @UnpackedFloat.unpackMantissa Format.binary32 b = 0#23
    · rw [if_pos hones, if_pos hzero]
      rw [BitVec.toNat_eq, he] at hones
      rw [BitVec.toNat_eq, hm] at hzero
      rw [hones, hzero]
      exact .infinity _
    · rw [if_pos hones, if_neg hzero] at number
      cases number
  · rw [if_neg hones]
    rw [BitVec.toNat_eq, he] at hones
    change ¬ _ = 255 at hones
    by_cases hsmall : @UnpackedFloat.unpackExponent Format.binary32 b = 0#8
    · rw [if_pos hsmall]
      rw [BitVec.toNat_eq, he] at hsmall
      change _ = 0 at hsmall
      by_cases hzero : @UnpackedFloat.unpackMantissa Format.binary32 b = 0#23
      · rw [dif_pos hzero]
        rw [BitVec.toNat_eq, hm] at hzero
        rw [hsmall, hzero]
        cases Sign.ofBitVec (@UnpackedFloat.unpackSign Format.binary32 b) with
        | positive => exact .zero .positive
        | negative => exact .zero .negative
      · rw [dif_neg hzero]
        apply Stands.of_place <;> omega
    · -- the leading bit makes up for the exponent, which is one less than that of a small number
      rw [if_neg hsmall]
      rw [BitVec.toNat_eq, he] at hsmall
      change ¬ _ = 0 at hsmall
      apply Stands.of_place <;> omega

/-! ### Ranks -/

theorem stands_toBits {a : Float32} (number : a.isNaN = false) :
    Stands a.toModel.unpack (signed a.toBits.toNat) :=
  stands_unpack a.toBits.toBitVec number

theorem lt_iff_compare {a b : Float32} :
    a < b ↔ a.toModel.unpack.compare b.toModel.unpack = some .lt := by
  show decide (a.toModel < b.toModel) = true ↔ _
  rw [decide_eq_true_iff]
  show (a.toModel.unpack.compare b.toModel.unpack == some .lt) = true ↔ _
  rw [beq_iff_eq]

theorem lt_iff_signed {a b : Float32} (ha : a.isNaN = false) (hb : b.isNaN = false) :
    a < b ↔ signed a.toBits.toNat < signed b.toBits.toNat := by
  rw [← (stands_toBits ha).compare_eq_lt (stands_toBits hb)]
  exact lt_iff_compare

theorem isNaN_of_lt {a b : Float32} (h : a < b) : a.isNaN = false ∧ b.isNaN = false := by
  rw [lt_iff_compare] at h
  show a.toModel.unpack.isNaN = false ∧ b.toModel.unpack.isNaN = false
  revert h
  cases a.toModel.unpack with
  | notANumber =>
    intro h
    cases h
  | _ =>
    cases b.toModel.unpack with
    | notANumber =>
      intro h
      cases h
    | _ => exact fun _ => ⟨rfl, rfl⟩

theorem lt_trans {a b c : Float32} (hab : a < b) (hbc : b < c) : a < c := by
  obtain ⟨ha, hb⟩ := isNaN_of_lt hab
  have hc := (isNaN_of_lt hbc).2
  rw [lt_iff_signed ha hb] at hab
  rw [lt_iff_signed hb hc] at hbc
  rw [lt_iff_signed ha hc]
  exact Int.lt_trans hab hbc

theorem rank_eq_of_number {a : Float32} (number : a.isNaN = false) :
    rank a = if a.toBits.toNat < 0x80000000 then (a.toBits.toNat : Int)
      else -((a.toBits.toNat - 0x80000000 : Nat) : Int) - 1 := by
  rw [rank, number, if_neg Bool.false_ne_true]

theorem rank_eq_of_nan {a : Float32} (nan : a.isNaN = true) : rank a = -0x100000000 := by
  rw [rank, if_pos nan]

theorem le_rank (a : Float32) : -0x80000000 ≤ rank a ∨ a.isNaN = true := by
  cases hnan : a.isNaN with
  | true => exact .inr rfl
  | false =>
    have hbits := a.toBits.toNat_lt
    rw [rank_eq_of_number hnan]
    split <;> omega

/-- For numbers, the rank tells the two zeros apart and is otherwise the place. -/
theorem rank_lt_iff_signed {a b : Float32} (ha : a.isNaN = false) (hb : b.isNaN = false) :
    rank a < rank b ↔ signed a.toBits.toNat < signed b.toBits.toNat ∨
      a.toBits.toNat = 0x80000000 ∧ b.toBits.toNat = 0 := by
  rw [rank_eq_of_number ha, rank_eq_of_number hb, signed, signed]
  split <;> split <;> omega

/-- **The order of benefits.** What is not a number is less than every number, numbers are ordered
by their values, and a negative zero is less than a positive one. -/
theorem rank_lt_iff (a b : Float32) : rank a < rank b ↔ Below a b := by
  by_cases hb : b.isNaN = true
  · have hnot : ¬ rank a < rank b := by
      rw [rank_eq_of_nan hb]
      rcases le_rank a with hle | ha
      · omega
      · rw [rank_eq_of_nan ha]
        omega
    constructor
    · intro hlt
      exact absurd hlt hnot
    · rintro ⟨hnumber, -⟩
      exact absurd hb (Bool.eq_false_iff.1 hnumber)
  · have hnumber : b.isNaN = false := Bool.eq_false_iff.2 hb
    by_cases ha : a.isNaN = true
    · have hlt : rank a < rank b := by
        have hleast := (le_rank b).resolve_right hb
        rw [rank_eq_of_nan ha]
        omega
      exact ⟨fun _ => ⟨hnumber, .inl ha⟩, fun _ => hlt⟩
    · have hzeros : a.toBits.toNat = 0x80000000 ∧ b.toBits.toNat = 0 ↔
          a.toBits = 0x80000000 ∧ b.toBits = 0 := by
        rw [← UInt32.toNat_inj, ← UInt32.toNat_inj]
        rfl
      rw [rank_lt_iff_signed (Bool.eq_false_iff.2 ha) hnumber, hzeros,
        ← lt_iff_signed (Bool.eq_false_iff.2 ha) hnumber]
      constructor
      · intro hless
        exact ⟨hnumber, .inr hless⟩
      · rintro ⟨-, hnan | hless⟩
        · exact absurd hnan ha
        · exact hless

end Equational.Benefit
