import Tacit.Proofs.Double.Canonical
import Tacit.Proofs.Double.Rounding

/-!
The text of a double, and what a reader of it learns. A finite double is written as its value
rounded to `places` decimal places, in the one form that has no zero to leave out; the text is
scanned as one double, and it is no integer.

* `exists_scaled`: the count of the last decimal place that is written.
* `scan_of_taken`: the text of one pattern is one lexeme at most.
* `text_canonical`: what the text is, when two texts are the same, and that none is an integer.
-/

namespace Tacit.Double

open Numeral (isDigits)
open Source (minus)

variable {x y : Float}

/-! ### The number that is written -/

theorem RoundsTo.withSign {q : ℚ} {m : ℤ} (h : RoundsTo q m) (negative : Bool) :
    RoundsTo (withSign negative q) (withSign negative m) := by
  cases negative with
  | true => exact h.neg
  | false => exact h

/-- Units are rounded to the last decimal place. -/
theorem roundsTo_scaled (units : ℕ) :
    RoundsTo (units / 2 ^ unitPlaces * 10 ^ places) (scaled units) := by
  rw [scaled, Nat.pow_eq, Nat.pow_eq]
  generalize unitPlaces = k
  have rounded := roundsTo_roundDiv (units * 10 ^ places) (pow_pos two_pos k)
  rw [div_mul_eq_mul_div]
  exact_mod_cast rounded

/-- A finite double is rounded to the count of the last decimal place that its units are scaled to,
with its sign. -/
theorem roundsTo_of_parts (finite : x.isFinite = true) {negative : Bool} {units : ℕ}
    (is : parts x = .finite negative units) : hasMinus x = negative ∧
      RoundsTo (exact x * 10 ^ places) (withSign negative (scaled units : ℤ)) := by
  obtain ⟨units, is', value⟩ := parts_of_isFinite finite
  obtain ⟨rfl, rfl⟩ := Parts.finite.inj (is'.symm.trans is)
  refine ⟨rfl, ?_⟩
  rw [value, withSign_mul]
  exact (roundsTo_scaled units).withSign _

/-- A finite double is written with its sign, from the count of the last decimal place that it is
rounded to. -/
theorem exists_scaled (finite : x.isFinite = true) : ∃ n : ℕ,
    text x = String.ofList (trimmed (signed (hasMinus x) (fixed n))) ∧
      RoundsTo (exact x * 10 ^ places) (withSign (hasMinus x) (n : ℤ)) := by
  obtain ⟨units, is, -⟩ := parts_of_isFinite finite
  refine ⟨scaled units, ?_, (roundsTo_of_parts finite is).2⟩
  rw [text, is]
  rfl

/-! ### The text is scanned -/

section Scanning

variable {negative : Bool} {whole fraction : List Char}

/-- The text of a number with a point is taken as a whole, and is no keyword. -/
theorem taken_written (is : isDigits whole = true) (isFraction : isDigits fraction = true) :
    Source.Taken .double (minus negative ++ (whole ++ '.' :: fraction)) [] := by
  refine ⟨Source.mem_double_iff.mpr ⟨_, _, _, is, isFraction, rfl⟩, ?_, ?_⟩
  · intro r text before _
    rw [List.append_nil] at before
    exact before.length_le
  · intro b mem
    have noPoint : '.' ∉ Elem.boolText b := by cases b <;> decide
    rw [← Set.mem_singleton_iff.mp mem] at noPoint
    exact absurd (by simp) noPoint

/-- A source that is the text of one pattern is scanned as what this text writes. -/
theorem scan_of_taken {r : Source.Rule} {text : List Char} {found : Option Token}
    (taken : Source.Taken r text []) (writes : Source.Writes r text found) :
    Source.scan (String.ofList text) =
      .ok (Source.lexemeOf found (String.ofList text) 1 0) := by
  have consumed : Source.Consumes [] (text ++ [])
      (Source.lexemeOf found (String.ofList text) 1 0 ++ []) :=
    .step taken writes (.nil _)
  rw [Source.scan_eq_ok_iff, String.toList_ofList]
  simpa only [List.append_nil] using consumed

end Scanning

/-! ### A text is no integer -/

/-- An integer is written in digits and a minus sign only. -/
theorem eq_minus_or_isDigit {cs : List Char} (mem : cs ∈ Source.Rule.integer.language) :
    ∀ c ∈ cs, c = '-' ∨ c.isDigit = true := by
  obtain ⟨negative, ds, is, rfl⟩ := Source.mem_integer_iff.mp mem
  intro c mem
  obtain sign | digit := List.mem_append.mp mem
  · cases negative with
    | true => exact .inl (List.mem_singleton.mp sign)
    | false => cases sign
  · exact .inr ((Numeral.isDigits_iff.mp is).2 c digit)

/-- The texts of doubles that are not finite have letters, and the others have a point. -/
theorem Parts.text_notMem_integer (p : Parts) : p.text ∉ Source.Rule.integer.language := by
  have stray : ∃ c ∈ p.text, ¬ (c = '-' ∨ c.isDigit = true) := by
    cases p with
    | nan => exact ⟨'N', by decide, by decide⟩
    | infinite negative => cases negative <;> exact ⟨'i', by decide, by decide⟩
    | finite negative units =>
      obtain ⟨whole, fraction, is, -⟩ := trimmed_signed_fixed negative (scaled units)
      refine ⟨'.', ?_, by decide⟩
      rw [Parts.text, Parts.fixed, is]
      simp
  obtain ⟨c, mem, neither⟩ := stray
  exact fun integer => neither (eq_minus_or_isDigit integer c mem)

/-! ### What the text says -/

/-- A double is written as its sign and the digits on both sides of a point, which have no zero to
leave out and denote the double rounded to the last decimal place; the text is scanned as one
lexeme, the double that its digits write. -/
structure Written (x : Float) (whole fraction : List Char) (m : ℤ) : Prop where
  spelled : (text x).toList = minus (hasMinus x) ++ (whole ++ '.' :: fraction)
  canonical : Canonical whole fraction
  rounds : RoundsTo (exact x * 10 ^ places) m
  value : denoted (hasMinus x) whole fraction = m / 10 ^ places
  scanned : Source.scan (text x) =
    .ok [⟨.literal .double (Source.decimal (hasMinus x) whole fraction), text x, 1, 0⟩]

/-- Every finite double is written in canonical form. -/
theorem exists_written (finite : x.isFinite = true) :
    ∃ whole fraction m, Written x whole fraction m := by
  obtain ⟨n, is, rounds⟩ := exists_scaled finite
  obtain ⟨whole, fraction, spelled, canonical, value⟩ := trimmed_signed_fixed (hasMinus x) n
  refine ⟨whole, fraction, _, ?_, canonical, rounds, ?_, ?_⟩
  · rw [is, String.toList_ofList, spelled]
  · rw [value, cast_withSign, withSign_div, Int.cast_natCast]
  · rw [is, spelled]
    exact scan_of_taken (taken_written canonical.isWhole canonical.isFraction)
      (.double canonical.isWhole canonical.isFraction)

/-- The text says no more than the sign and the number that is rounded to. -/
theorem text_eq_iff (finite : x.isFinite = true) (finite' : y.isFinite = true) :
    text x = text y ↔ hasMinus x = hasMinus y ∧
      ∃ m, RoundsTo (exact x * 10 ^ places) m ∧ RoundsTo (exact y * 10 ^ places) m := by
  constructor
  · intro same
    obtain ⟨whole, fraction, m, written⟩ := exists_written finite
    obtain ⟨whole', fraction', m', written'⟩ := exists_written finite'
    have spelled := written.spelled
    rw [same, written'.spelled] at spelled
    obtain ⟨signs, rfl, rfl⟩ := written_inj written'.canonical.isWhole written.canonical.isWhole
      written'.canonical.isFraction spelled
    have value := written'.value
    rw [signs, written.value, div_left_inj' (pow_ne_zero _ (by norm_num)), Int.cast_inj] at value
    exact ⟨signs.symm, m, written.rounds, value ▸ written'.rounds⟩
  · rintro ⟨signs, m, rounds, rounds'⟩
    obtain ⟨n, is, scaled⟩ := exists_scaled finite
    obtain ⟨n', is', scaled'⟩ := exists_scaled finite'
    have equal := (scaled.unique rounds).trans (rounds'.unique scaled')
    rw [← signs, withSign_inj, Int.ofNat_inj] at equal
    rw [is, is', equal, signs]

/-- A finite double is written without a zero to leave out, as what it is rounded to, and read back
as one double. Two of them are written alike if both their signs and what they are rounded to are
the same. No double is written as an integer is. -/
theorem text_canonical (x : Float) :
    (x.isFinite = true → ∃ whole fraction m, Written x whole fraction m) ∧
    (∀ y, x.isFinite = true → y.isFinite = true →
      (text x = text y ↔ hasMinus x = hasMinus y ∧
        ∃ m, RoundsTo (exact x * 10 ^ places) m ∧ RoundsTo (exact y * 10 ^ places) m)) ∧
    (text x).toList ∉ Source.Rule.integer.language := by
  refine ⟨exists_written, fun y finite finite' => text_eq_iff finite finite', ?_⟩
  rw [text, String.toList_ofList]
  exact (parts x).text_notMem_integer

/-- The negative number next to zero is written as negative zero is, and not as zero; its text is
scanned as one double. -/
theorem text_canonical_next_to_zero :
    (-5e-324 : Float).isFinite = true ∧ (-0.0 : Float).isFinite = true ∧
    (0.0 : Float).isFinite = true ∧
    (∃ d, Source.scan (text (-5e-324)) = .ok [⟨.literal .double d, text (-5e-324), 1, 0⟩]) ∧
    text (-5e-324) = text (-0.0) ∧ text (-5e-324) ≠ text 0.0 := by
  have next : (-5e-324 : Float).isFinite = true ∧ parts (-5e-324) = .finite true 1 := by
    decide +kernel
  have negZero : (-0.0 : Float).isFinite = true ∧ parts (-0.0) = .finite true 0 := by decide +kernel
  have zero : (0.0 : Float).isFinite = true ∧ parts 0.0 = .finite false 0 := by decide +kernel
  obtain ⟨sign, rounds⟩ := roundsTo_of_parts next.1 next.2
  obtain ⟨sign', rounds'⟩ := roundsTo_of_parts negZero.1 negZero.2
  refine ⟨next.1, negZero.1, zero.1, ?_, ?_, ?_⟩
  · obtain ⟨_, _, _, written⟩ := (text_canonical (-5e-324)).1 next.1
    exact ⟨_, written.scanned⟩
  · have nothing : scaled 1 = scaled 0 := by decide +kernel
    rw [nothing] at rounds
    exact ((text_canonical (-5e-324)).2.1 (-0.0) next.1 negZero.1).mpr
      ⟨sign.trans sign'.symm, _, rounds, rounds'⟩
  · intro same
    have signs := (((text_canonical (-5e-324)).2.1 0.0 next.1 zero.1).mp same).1
    rw [sign, (roundsTo_of_parts zero.1 zero.2).1] at signs
    cases signs

end Tacit.Double
