import Mathlib.Data.List.DropRight
import Mathlib.Tactic.IntervalCases
import Tacit.Proofs.Double.Exact
import Tacit.Proofs.Source.Scanned

/-!
The form of a trimmed number with a point.

* `Canonical`: no superfluous zero on either side of the point, and at most `places` behind it.
* `trimmed_signed_fixed`: a count of the last decimal place is written in that form, with its value.
* `written_inj`: a sign and the digits on both sides of a point are read off a text.
-/

namespace Tacit.Double

open Numeral (isDigits isDigits_iff value digits)
open Source (minus)

/-! ### Digits -/

section Digits

variable {n : Nat} {ds : List Char}

/-- Only zero begins with a zero: the first digit of a longer number is that of its tenth. -/
theorem head?_digits_ne_zero (pos : 0 < n) : (digits n).head? ≠ some '0' := by
  induction n using Nat.strong_induction_on with
  | _ n ih =>
    by_cases short : n < 10
    · rw [digits, Nat.toDigits_of_lt_base short]
      interval_cases n <;> decide
    · have tenth := ih (n / 10) (by omega) (by omega)
      rw [digits, Nat.toDigits_of_base_le (by decide) (Nat.le_of_not_lt short),
        List.head?_append_of_ne_nil _ Nat.toDigits_ne_nil]
      exact tenth

/-- The digits of a number have no superfluous zero in front. -/
theorem digits_eq_zero_or_head?_ne (n : Nat) : digits n = ['0'] ∨ (digits n).head? ≠ some '0' := by
  obtain rfl | pos := Nat.eq_zero_or_pos n
  · exact .inl rfl
  · exact .inr (head?_digits_ne_zero pos)

/-- Digits behind others shift the value of these. -/
theorem value_append (ds es : List Char) :
    value (ds ++ es) = value ds * 10 ^ es.length + value es := by
  rw [value, Nat.ofDigitChars_append, Nat.ofDigitChars_eq_ofDigitChars_zero, Nat.mul_comm]
  rfl

theorem value_replicate_zero (zeros : Nat) : value (List.replicate zeros '0') = 0 :=
  Nat.ofDigitChars_replicate_zero

/-- Each zero behind digits is a factor of ten. -/
theorem value_append_zeros (ds : List Char) (zeros : Nat) :
    value (ds ++ List.replicate zeros '0') = value ds * 10 ^ zeros := by
  rw [value_append, value_replicate_zero, List.length_replicate, Nat.add_zero]

/-- Zeros in front do not change the value. -/
theorem value_padded (width n : Nat) : value (padded width n) = n := by
  rw [padded, value_append, value_replicate_zero, Nat.zero_mul, Nat.zero_add, Numeral.value_digits]

/-- A number that fits a width is padded to just this width. -/
theorem length_padded {width : Nat} (pos : 0 < width) (fits : n < 10 ^ width) :
    (padded width n).length = width := by
  have short : (digits n).length ≤ width :=
    (Nat.length_toDigits_le_iff (by decide) pos).mpr fits
  rw [padded, List.length_append, List.length_replicate]
  omega

theorem isDigits_padded (width n : Nat) : isDigits (padded width n) = true := by
  obtain ⟨nonempty, all⟩ := isDigits_iff.mp (Numeral.isDigits_digits n)
  refine isDigits_iff.mpr ⟨List.append_ne_nil_of_right_ne_nil _ nonempty, ?_⟩
  intro c mem
  obtain zero | digit := List.mem_append.mp mem
  · rw [List.eq_of_mem_replicate zero]
    rfl
  · exact all c digit

theorem point_notMem (is : isDigits ds = true) : '.' ∉ ds := by
  intro mem
  exact absurd ((isDigits_iff.mp is).2 _ mem) (by decide)

end Digits

/-! ### Trimming -/

def isZero (c : Char) : Bool := c == '0'

/-- A point stops the dropping of zeros. -/
theorem rdropWhile_point (head ds : List Char) :
    (head ++ '.' :: ds).rdropWhile isZero = head ++ '.' :: ds.rdropWhile isZero := by
  induction ds using List.reverseRecOn with
  | nil => exact List.rdropWhile_concat_neg _ _ _ (by decide)
  | append_singleton ds c ih =>
    rw [← List.cons_append, ← List.append_assoc, List.rdropWhile_concat, List.rdropWhile_concat]
    split
    · exact ih
    · simp

/-- What is dropped at the end of digits is zeros. -/
theorem rdropWhile_append_zeros (ds : List Char) :
    ∃ zeros, ds = ds.rdropWhile isZero ++ List.replicate zeros '0' := by
  have zero : ∀ c ∈ ds.rtakeWhile isZero, c = '0' := by
    intro c mem
    exact eq_of_beq (List.mem_rtakeWhile_imp mem : isZero c = true)
  have zeros : ds.rtakeWhile isZero = List.replicate (ds.rtakeWhile isZero).length '0' :=
    List.eq_replicate_iff.mpr ⟨rfl, zero⟩
  refine ⟨(ds.rtakeWhile isZero).length, ?_⟩
  rw [← zeros, List.rdropWhile_append_rtakeWhile]

/-- Of a text with a point, what is behind the point loses its zeros, and a bare point gets one
back. -/
theorem trimmed_point (head ds : List Char) :
    trimmed (head ++ '.' :: ds) =
      let kept := head ++ '.' :: ds.rdropWhile isZero
      if kept.getLast? = some '.' then kept ++ ['0'] else kept := by
  have point : (head ++ '.' :: ds).contains '.' = true := by simp
  rw [← rdropWhile_point, trimmed, if_pos point]
  rfl

/-- Where all digits behind the point are zeros, one stays. -/
theorem trimmed_zeros (head : List Char) (zeros : Nat) :
    trimmed (head ++ '.' :: List.replicate zeros '0') = head ++ ['.', '0'] := by
  have none : (List.replicate zeros '0').rdropWhile isZero = [] := by
    rw [List.rdropWhile_eq_nil_iff]
    intro c mem
    rw [List.eq_of_mem_replicate mem]
    rfl
  rw [trimmed_point, none]
  simp

/-- Where some digit behind the point is not zero, only the zeros at the end go. -/
theorem trimmed_digits (head : List Char) {ds : List Char} (is : isDigits ds = true)
    (kept : ds.rdropWhile isZero ≠ []) :
    trimmed (head ++ '.' :: ds) = head ++ '.' :: ds.rdropWhile isZero := by
  have digit : (ds.rdropWhile isZero).getLast kept ∈ ds :=
    (List.rdropWhile_prefix isZero ds).subset (List.getLast_mem kept)
  have noPoint : (head ++ '.' :: ds.rdropWhile isZero).getLast? ≠ some '.' := by
    rw [List.getLast?_append_of_ne_nil _ (List.cons_ne_nil _ _), List.getLast?_cons,
      List.getLast?_eq_some_getLast kept]
    intro point
    exact point_notMem is (Option.some.inj point ▸ digit)
  rw [trimmed_point]
  exact if_neg noPoint

/-- The zeros at the end of the digits behind a point go, but one digit stays. -/
theorem exists_trimmed (head : List Char) {ds : List Char} (is : isDigits ds = true) :
    ∃ fraction zeros, ds = fraction ++ List.replicate zeros '0' ∧ fraction ≠ [] ∧
      (fraction = ['0'] ∨ fraction.getLast? ≠ some '0') ∧
      trimmed (head ++ '.' :: ds) = head ++ '.' :: fraction := by
  obtain ⟨zeros, split⟩ := rdropWhile_append_zeros ds
  by_cases kept : ds.rdropWhile isZero = []
  · rw [kept, List.nil_append] at split
    cases zeros with
    | zero => exact absurd split (isDigits_iff.mp is).1
    | succ zeros =>
      refine ⟨['0'], zeros, split, List.cons_ne_nil _ _, .inl rfl, ?_⟩
      rw [split]
      exact trimmed_zeros head _
  · refine ⟨_, zeros, split, kept, .inr ?_, trimmed_digits head is kept⟩
    rw [List.getLast?_eq_some_getLast kept]
    intro zero
    have last := List.rdropWhile_last_not isZero ds kept
    rw [Option.some.inj zero] at last
    exact last rfl

/-! ### The form -/

/-- The digits on both sides of a point, with no zero that could be left out. -/
structure Canonical (whole fraction : List Char) : Prop where
  isWhole : isDigits whole = true
  first : whole = ['0'] ∨ whole.head? ≠ some '0'
  isFraction : isDigits fraction = true
  short : fraction.length ≤ places
  last : fraction = ['0'] ∨ fraction.getLast? ≠ some '0'

def denoted (negative : Bool) (whole fraction : List Char) : ℚ :=
  withSign negative (value (whole ++ fraction) / 10 ^ fraction.length : ℚ)

/-- Zeros at the end of a fraction do not count. -/
theorem div_pow_eq {n v length zeros total : Nat} (count : n = v * 10 ^ zeros)
    (sum : length + zeros = total) : (n : ℚ) / 10 ^ total = v / 10 ^ length := by
  have nonzero : (10 : ℚ) ^ zeros ≠ 0 := pow_ne_zero _ (by norm_num)
  rw [count, ← sum, pow_add, Nat.cast_mul, Nat.cast_pow, Nat.cast_ofNat,
    mul_div_mul_right _ _ nonzero]

theorem signed_eq (negative : Bool) (cs : List Char) : signed negative cs = minus negative ++ cs := by
  cases negative <;> rfl

/-- A count of the last decimal place is the value of its digits, a zero behind the point being as
good as a factor. -/
theorem eq_value_mul {n zeros : Nat} {fraction : List Char}
    (split : padded places (n % 10 ^ places) = fraction ++ List.replicate zeros '0') :
    n = value (digits (n / 10 ^ places) ++ fraction) * 10 ^ zeros := by
  have all := length_padded (by decide) (Nat.mod_lt n (by decide : 0 < 10 ^ places))
  rw [← value_append_zeros, List.append_assoc, ← split, value_append, value_padded, all,
    Numeral.value_digits]
  exact (Nat.div_add_mod' n _).symm

/-- A count of the last decimal place is written in canonical form, with its value. -/
theorem trimmed_signed_fixed (negative : Bool) (n : Nat) : ∃ whole fraction,
    trimmed (signed negative (fixed n)) = minus negative ++ (whole ++ '.' :: fraction) ∧
      Canonical whole fraction ∧
      denoted negative whole fraction = withSign negative (n / 10 ^ places : ℚ) := by
  have digit := isDigits_padded places (n % 10 ^ places)
  obtain ⟨fraction, zeros, split, nonempty, last, is⟩ :=
    exists_trimmed (minus negative ++ digits (n / 10 ^ places)) digit
  have sum : fraction.length + zeros = places := by
    have all := length_padded (by decide) (Nat.mod_lt n (by decide : 0 < 10 ^ places))
    rw [← all, split, List.length_append, List.length_replicate]
  have isFraction : isDigits fraction = true := by
    refine isDigits_iff.mpr ⟨nonempty, fun c mem => (isDigits_iff.mp digit).2 c ?_⟩
    rw [split]
    exact List.mem_append_left _ mem
  refine ⟨digits (n / 10 ^ places), fraction, ?_, ?_, ?_⟩
  · rw [signed_eq, fixed, ← List.append_assoc, ← List.append_assoc]
    exact is
  · exact ⟨Numeral.isDigits_digits _, digits_eq_zero_or_head?_ne _, isFraction, by omega, last⟩
  · rw [denoted, div_pow_eq (eq_value_mul split) sum]

/-- A hundred keeps the zeros in front of the point and one behind it. -/
example : trimmed (signed true (fixed 100000000)) = ['-', '1', '0', '0', '.', '0'] := by
  decide +kernel

/-- The sign and the digits on both sides of a point are read off a text. -/
theorem written_inj {negative negative' : Bool} {whole whole' fraction fraction' : List Char}
    (is : isDigits whole = true) (is' : isDigits whole' = true)
    (isFraction : isDigits fraction = true)
    (same : minus negative ++ (whole ++ '.' :: fraction) =
      minus negative' ++ (whole' ++ '.' :: fraction')) :
    negative = negative' ∧ whole = whole' ∧ fraction = fraction' := by
  have signs : negative = negative' ∧ whole ++ '.' :: fraction = whole' ++ '.' :: fraction' := by
    obtain ⟨c, cs, rfl, first⟩ := Source.exists_digit is
    obtain ⟨c', cs', rfl, first'⟩ := Source.exists_digit is'
    have read := congrArg Numeral.sign same
    simp only [List.cons_append, Source.sign_minus first, Source.sign_minus first'] at read
    exact Prod.mk.inj read
  obtain ⟨rfl, rest⟩ := signs
  have digits :=
    (List.append_cons_inj_of_notMem (point_notMem is) (point_notMem isFraction)).mp rest
  exact ⟨rfl, digits.1, digits.2.2⟩

end Tacit.Double
