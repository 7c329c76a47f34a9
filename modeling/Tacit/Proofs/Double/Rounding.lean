import Mathlib.Algebra.Group.Int.Even
import Mathlib.Algebra.Order.Field.Basic
import Mathlib.Data.Rat.Cast.Order
import Mathlib.Tactic.FieldSimp
import Mathlib.Tactic.Linarith
import Tacit.Double.Fixed

/-!
Rounding to the nearest integer, a half going to the even neighbour, as a relation: the quotient
that `roundDiv` computes is the one number that the exact quotient rounds to.

* `RoundsTo.unique`: a number rounds to one integer only.
* `roundsTo_roundDiv`: the rounded quotient.
-/

namespace Tacit.Double

/-- The integer is nearest to the number, and of two that are nearest it is the even one. -/
structure RoundsTo (q : ℚ) (m : ℤ) : Prop where
  near : |q - m| ≤ 1 / 2
  even : |q - m| = 1 / 2 → Even m

namespace RoundsTo

variable {q : ℚ} {m m' : ℤ}

/-- Rounding does not depend on the sign, as a tie goes to the even number on both sides. -/
theorem neg (h : RoundsTo q m) : RoundsTo (-q) (-m) := by
  have far : |-q - (-m : ℤ)| = |q - m| := by
    rw [Int.cast_neg, ← neg_sub', abs_neg]
  exact ⟨far ▸ h.near, fun tie => (h.even (far ▸ tie)).neg⟩

/-- Two integers that are both within a half are next to each other and both a half away, so one of
them is odd. -/
theorem unique (h : RoundsTo q m) (h' : RoundsTo q m') : m = m' := by
  by_contra ne
  wlog lt : m < m' generalizing m m'
  · exact this h' h (Ne.symm ne) (by omega)
  have apart : (m : ℚ) + 1 ≤ m' := by exact_mod_cast lt
  have above := abs_le.mp h.near
  have below := abs_le.mp h'.near
  have tie : q - m = 1 / 2 := by linarith
  have tie' : q - m' = -(1 / 2) := by linarith
  have next : m' = m + 1 := by
    have : (m' : ℚ) = m + 1 := by linarith
    exact_mod_cast this
  have even := h.even (by rw [tie]; norm_num)
  have even' := h'.even (by rw [tie']; norm_num)
  rw [next] at even'
  exact Int.not_even_iff_odd.mpr even.add_one even'

end RoundsTo

/-- A rest of half of the divisor is the only one for which a rounded quotient is a half away. -/
theorem mod_of_tie {num den : ℕ} (pos : 0 < den)
    (tie : 2 * num = 2 * (roundDiv num den * den) + den ∨
      2 * num + den = 2 * (roundDiv num den * den)) : 2 * (num % den) = den := by
  have split := Nat.div_add_mod num den
  have rest := Nat.mod_lt num pos
  rw [Nat.mul_comm] at split
  rw [roundDiv] at tie
  split at tie
  · rw [Nat.add_mul, Nat.one_mul] at tie
    omega
  · omega

/-- The exact quotient rounds to the quotient that is computed. -/
theorem roundsTo_roundDiv (num : ℕ) {den : ℕ} (pos : 0 < den) :
    RoundsTo ((num : ℚ) / den) (roundDiv num den) := by
  have positive : (0 : ℚ) < 2 * den := by exact_mod_cast Nat.mul_pos two_pos pos
  have distance : |(num : ℚ) / den - ((roundDiv num den : ℕ) : ℤ)| =
      |2 * (num : ℚ) - 2 * (roundDiv num den * den)| / (2 * den) := by
    have same : (num : ℚ) / den - ((roundDiv num den : ℕ) : ℤ) =
        (2 * (num : ℚ) - 2 * (roundDiv num den * den)) / (2 * den) := by
      rw [Int.cast_natCast]
      field_simp
    rw [same, abs_div, abs_of_pos positive]
  constructor
  · have low : (2 : ℚ) * (roundDiv num den * den) ≤ 2 * num + den := by
      exact_mod_cast roundDiv_le num den
    have high : (2 : ℚ) * num ≤ 2 * (roundDiv num den * den) + den := by
      exact_mod_cast le_roundDiv num pos
    rw [distance, div_le_iff₀ positive, abs_le]
    constructor <;> linarith
  · intro half
    rw [distance, div_eq_iff positive.ne'] at half
    have tie : 2 * num = 2 * (roundDiv num den * den) + den ∨
        2 * num + den = 2 * (roundDiv num den * den) := by
      rcases abs_cases (2 * (num : ℚ) - 2 * (roundDiv num den * den)) with ⟨eq, -⟩ | ⟨eq, -⟩
      · left
        have : 2 * (num : ℚ) = 2 * (roundDiv num den * den) + den := by linarith
        exact_mod_cast this
      · right
        have : 2 * (num : ℚ) + den = 2 * (roundDiv num den * den) := by linarith
        exact_mod_cast this
    have even := even_roundDiv_of_tie (mod_of_tie pos tie)
    exact_mod_cast Nat.even_iff.mpr even

end Tacit.Double
