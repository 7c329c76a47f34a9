import Mathlib.Data.Rat.Cast.Order
import Mathlib.Tactic.NormNum
import Tacit.Double.Fixed

/-!
The number that a double stands for, as a rational number, and how the parts that its bits encode
give that number.

* `number`, `isMinus`: the number and the sign of an unpacked double.
* `ofBits_eq`: the parts by the fields of the bits.
* `unpack_of_zero`, `unpack_of_subnormal`, `unpack_of_normal`: what a finite double is unpacked to,
  by the same fields.
* `parts_of_isFinite`: the parts of a finite double are its sign and its number.
-/

namespace Tacit.Double

open Float.Model Float.Model.UnpackedFloat

/-- The number that an unpacked double stands for, if it is finite. -/
def number : UnpackedFloat → ℚ
  | .finite sign mantissa exponent _ => sign.apply mantissa * 2 ^ exponent
  | _ => 0

/-- Whether an unpacked double has a minus sign. A zero may have one. -/
def isMinus : UnpackedFloat → Bool
  | .finite .negative _ _ _ | .zero .negative | .infinity .negative => true
  | _ => false

def exact (x : Float) : ℚ := number x.toModel.unpack

/-- Whether a double has a minus sign. -/
def hasMinus (x : Float) : Bool := isMinus x.toModel.unpack

def withSign {α : Type} [Neg α] (negative : Bool) (n : α) : α := if negative then -n else n

section Sign

variable (negative : Bool)

theorem withSign_mul (q r : ℚ) : withSign negative q * r = withSign negative (q * r) := by
  cases negative with
  | true => exact neg_mul q r
  | false => rfl

theorem withSign_div (q r : ℚ) : withSign negative q / r = withSign negative (q / r) := by
  rw [div_eq_mul_inv, withSign_mul, ← div_eq_mul_inv]

theorem cast_withSign (m : ℤ) : (withSign negative m : ℤ) = withSign negative (m : ℚ) := by
  cases negative with
  | true => exact Int.cast_neg m
  | false => rfl

end Sign

theorem withSign_inj {negative : Bool} {m n : ℤ} :
    withSign negative m = withSign negative n ↔ m = n := by
  cases negative with
  | true => exact neg_inj
  | false => exact Iff.rfl

section Bits

variable (b : BitVec Format.binary64.numBits)

/-- The mantissa is in the lowest 52 bits. -/
theorem toNat_unpackMantissa : (unpackMantissa b).toNat = b.toNat % 2 ^ 52 := by
  simp [unpackMantissa]

/-- The exponent is in the 11 bits above the mantissa. -/
theorem toNat_unpackExponent : (unpackExponent b).toNat = b.toNat / 2 ^ 52 % 2 ^ 11 := by
  simp [unpackExponent, Nat.shiftRight_eq_div_pow]

/-- The highest bit is the sign. -/
theorem ofBitVec_unpackSign :
    Sign.ofBitVec (unpackSign b) = if isNegative b.toNat then .negative else .positive := by
  have size : b.toNat < 2 ^ 64 := b.isLt
  have top : (unpackSign b).toNat = b.toNat >>> 63 % 2 := rfl
  have bit : unpackSign b = 0#1 ↔ isNegative b.toNat = false := by
    rw [← BitVec.toNat_inj, isNegative, decide_eq_false_iff_not, top, Nat.shiftRight_eq_div_pow]
    show b.toNat / 2 ^ 63 % 2 = 0 ↔ ¬ 2 ^ 63 ≤ b.toNat
    omega
  rw [Sign.ofBitVec]
  cases negative : isNegative b.toNat with
  | true => rw [if_neg (by simp [bit, negative]), if_pos rfl]
  | false => rw [if_pos (bit.mpr negative), if_neg (by simp)]

/-- The parts of a double by the fields of its bits. -/
theorem ofBits_eq : Parts.ofBits b.toNat =
    if unpackExponent b = -1#_ then
      if unpackMantissa b = 0#_ then .infinite (isNegative b.toNat) else .nan
    else if unpackExponent b = 0#_ then
      .finite (isNegative b.toNat) (unpackMantissa b).toNat
    else .finite (isNegative b.toNat)
      ((2 ^ 52 + (unpackMantissa b).toNat) * 2 ^ ((unpackExponent b).toNat - 1)) := by
  have biased : magnitude b.toNat / Nat.pow 2 52 = (unpackExponent b).toNat := by
    rw [toNat_unpackExponent]
    show b.toNat % 2 ^ 63 / 2 ^ 52 = _
    omega
  have fraction : b.toNat % Nat.pow 2 52 = (unpackMantissa b).toNat :=
    (toNat_unpackMantissa b).symm
  have infinite : unpackExponent b = -1#_ ↔ (unpackExponent b).toNat = 2047 :=
    BitVec.toNat_inj.symm
  have subnormal : unpackExponent b = 0#_ ↔ (unpackExponent b).toNat = 0 := BitVec.toNat_inj.symm
  have whole : unpackMantissa b = 0#_ ↔ (unpackMantissa b).toNat = 0 := BitVec.toNat_inj.symm
  simp only [Parts.ofBits, biased, fraction, infinite, subnormal, whole,
    Nat.add_comm _ (Nat.pow 2 52)]
  rfl

theorem isMinus_zero (negative : Bool) :
    isMinus (.zero (if negative then .negative else .positive)) = negative := by
  cases negative <;> rfl

theorem isMinus_finite (negative : Bool) {m : Nat} (e : Int) (positive : 0 < m) :
    isMinus (.finite (if negative then .negative else .positive) m e positive) = negative := by
  cases negative <;> rfl

/-- A finite double stands for its mantissa, scaled by its exponent, with its sign. -/
theorem number_finite (negative : Bool) {m : Nat} (e : Int) (positive : 0 < m) :
    number (.finite (if negative then .negative else .positive) m e positive) =
      withSign negative (m * 2 ^ e : ℚ) := by
  cases negative with
  | true =>
    show ((-m : ℤ) : ℚ) * 2 ^ e = -(m * 2 ^ e)
    rw [Int.cast_neg, Int.cast_natCast, neg_mul]
  | false =>
    show ((m : ℤ) : ℚ) * 2 ^ e = m * 2 ^ e
    rw [Int.cast_natCast]

/-- The leading bit of a normal number is implicit. -/
theorem toNat_leading : (1#1 ++ unpackMantissa b).toNat = 2 ^ 52 + (unpackMantissa b).toNat := by
  rw [BitVec.toNat_append, ← Nat.shiftLeft_add_eq_or_of_lt (unpackMantissa b).isLt,
    Nat.shiftLeft_eq]
  rfl

/-- A power of two below the point is a number of units. -/
theorem two_zpow_sub (e : Nat) :
    (2 : ℚ) ^ ((e : ℤ) - unitPlaces) = 2 ^ e / 2 ^ unitPlaces := by
  rw [zpow_sub₀ two_ne_zero, zpow_natCast, zpow_natCast]

section Unpack

-- Unpacking tests the exponent first and then the mantissa, and each equation is the chain of the
-- tests on its way.
variable {b}

/-- With an exponent of ones only, a double is infinite or no number. -/
theorem isFinite_unpack_of_ones (infinite : unpackExponent b = -1#_) :
    (unpack .binary64 b).isFinite = false := by
  rcases em (unpackMantissa b = 0#_) with zero | nonzero
  · have is : unpack .binary64 b = .infinity (.ofBitVec (unpackSign b)) :=
      (if_pos infinite).trans (if_pos zero)
    rw [is]
    rfl
  · have is : unpack .binary64 b = .notANumber := (if_pos infinite).trans (if_neg nonzero)
    rw [is]
    rfl

theorem ne_ones_of_subnormal (subnormal : unpackExponent b = 0#_) : unpackExponent b ≠ -1#_ := by
  rw [subnormal]
  decide

/-- A zero has no digit that is not zero, and only its sign is kept. -/
theorem unpack_of_zero (subnormal : unpackExponent b = 0#_) (zero : unpackMantissa b = 0#_) :
    unpack .binary64 b = .zero (.ofBitVec (unpackSign b)) :=
  (if_neg (ne_ones_of_subnormal subnormal)).trans ((if_pos subnormal).trans (dif_pos zero))

/-- Below the normal range the exponent is that of the smallest normal numbers. -/
theorem unpack_of_subnormal (subnormal : unpackExponent b = 0#_)
    (nonzero : unpackMantissa b ≠ 0#_) : ∃ positive, unpack .binary64 b =
      .finite (.ofBitVec (unpackSign b)) (unpackMantissa b).toNat (-unitPlaces) positive := by
  have finite := ne_ones_of_subnormal subnormal
  have place : ((unpackExponent b).toNat : ℤ) -
      (Format.binary64.exponentBias + (52 : ℕ)) + 1 = -unitPlaces := by
    rw [subnormal]
    rfl
  rw [← place]
  exact ⟨_, (if_neg finite).trans ((if_pos subnormal).trans (dif_neg nonzero))⟩

/-- In the normal range the mantissa has a leading bit. -/
theorem unpack_of_normal (finite : unpackExponent b ≠ -1#_) (normal : unpackExponent b ≠ 0#_) :
    ∃ positive, unpack .binary64 b = .finite (.ofBitVec (unpackSign b))
      (1#1 ++ unpackMantissa b).toNat ((unpackExponent b).toNat - 1075) positive :=
  ⟨_, (if_neg finite).trans (if_neg normal)⟩

end Unpack

/-- The parts of a finite double are its sign and the number that it stands for. -/
theorem ofBits_of_isFinite (finite : (unpack .binary64 b).isFinite = true) :
    ∃ units, Parts.ofBits b.toNat = .finite (isMinus (.unpack .binary64 b)) units ∧
      number (.unpack .binary64 b) =
        withSign (isMinus (.unpack .binary64 b)) (units / 2 ^ unitPlaces : ℚ) := by
  have ones : unpackExponent b ≠ -1#_ := by
    intro infinite
    rw [isFinite_unpack_of_ones infinite] at finite
    cases finite
  rw [ofBits_eq, if_neg ones]
  by_cases subnormal : unpackExponent b = 0#_
  · rw [if_pos subnormal]
    by_cases zero : unpackMantissa b = 0#_
    · rw [unpack_of_zero subnormal zero, ofBitVec_unpackSign, isMinus_zero]
      refine ⟨_, rfl, ?_⟩
      rw [zero]
      show (0 : ℚ) = withSign (isNegative b.toNat) ((0 : ℕ) / 2 ^ unitPlaces : ℚ)
      simp [withSign]
    · obtain ⟨positive, is⟩ := unpack_of_subnormal subnormal zero
      rw [ofBitVec_unpackSign] at is
      rw [is, isMinus_finite, number_finite]
      exact ⟨_, rfl, by rw [zpow_neg, zpow_natCast, div_eq_mul_inv]⟩
  · rw [if_neg subnormal]
    obtain ⟨positive, is⟩ := unpack_of_normal ones subnormal
    rw [ofBitVec_unpackSign] at is
    rw [is, isMinus_finite, number_finite]
    refine ⟨_, rfl, ?_⟩
    -- a normal number has an exponent of one at least, so the units have no truncated difference
    obtain ⟨e, exponent⟩ : ∃ e, (unpackExponent b).toNat = e + 1 := by
      refine Nat.exists_eq_succ_of_ne_zero fun zero => subnormal ?_
      exact BitVec.toNat_inj.mp zero
    have place : ((e + 1 : ℕ) : ℤ) - 1075 = (e : ℤ) - unitPlaces := by
      show ((e + 1 : ℕ) : ℤ) - 1075 = e - 1074
      omega
    rw [toNat_leading, exponent, place, two_zpow_sub, Nat.add_sub_cancel]
    push_cast
    rw [mul_div_assoc]

end Bits

/-- The parts of a finite double are its sign and the number that it stands for. -/
theorem parts_of_isFinite {x : Float} (finite : x.isFinite = true) :
    ∃ units, parts x = .finite (hasMinus x) units ∧
      exact x = withSign (hasMinus x) (units / 2 ^ unitPlaces : ℚ) :=
  ofBits_of_isFinite x.toModel.toBits.toBitVec finite

end Tacit.Double
