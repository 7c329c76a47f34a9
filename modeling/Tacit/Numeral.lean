/-!
Decimal numerals: the digits of a natural number, the value of a digit string, and the
reading of 32-bit integers.

* `value_digits`: a number is the value of its digits.
* `int32?_ofInt`: every 32-bit integer is read from its text.
-/

namespace Tacit.Numeral

/-- The decimal digits of `n`, most significant first, without superfluous zeros. -/
def digits (n : Nat) : List Char := Nat.toDigits 10 n

def value (ds : List Char) : Nat := Nat.ofDigitChars 10 ds 0

/-- A number is the value of its digits. -/
theorem value_digits (n : Nat) : value (digits n) = n :=
  Nat.ofDigitChars_toDigits (by decide) (by decide)

theorem isDigit_of_mem_digits {n : Nat} {c : Char} (h : c ∈ digits n) : c.isDigit = true :=
  Nat.isDigit_of_mem_toDigits (by decide) (by decide) h

/-- There is a first digit, since zero has one too. -/
theorem exists_digits_eq_cons (n : Nat) :
    ∃ c cs, digits n = c :: cs ∧ c.isDigit = true ∧ ∀ d ∈ cs, d.isDigit = true := by
  obtain ⟨c, cs, eq⟩ := List.exists_cons_of_ne_nil (Nat.toDigits_ne_nil : digits n ≠ [])
  have each : ∀ d ∈ c :: cs, d.isDigit = true := fun d mem => isDigit_of_mem_digits (eq ▸ mem)
  exact ⟨c, cs, eq, List.forall_mem_cons.mp each⟩

/-- An integer as written: a minus sign before the digits of a negative one. -/
def ofInt : Int → List Char
  | .ofNat n => digits n
  | .negSucc n => '-' :: digits (n + 1)

def isDigits (cs : List Char) : Bool := !cs.isEmpty && cs.all Char.isDigit

/-- The sign of a numeral, and what follows it. A numeral without a sign is positive. -/
def sign : List Char → Bool × List Char
  | '-' :: cs => (true, cs)
  | '+' :: cs => (false, cs)
  | cs => (false, cs)

/-- The integer written by an optional sign and decimal digits. -/
def int? (cs : List Char) : Option Int :=
  let (negative, ds) := sign cs
  if isDigits ds then some (if negative then -(value ds : Int) else (value ds : Int)) else none

def fits32 (z : Int) : Bool := -Nat.pow 2 31 ≤ z && z < Nat.pow 2 31

/-- The 32-bit integer that a numeral denotes. A numeral beyond the range denotes none: it is
refused, not wrapped. -/
def int32? (cs : List Char) : Option Int32 :=
  match int? cs with
  | some z => if fits32 z then some (Int32.ofInt z) else none
  | none => none

theorem isDigits_iff {cs : List Char} :
    isDigits cs = true ↔ cs ≠ [] ∧ ∀ c ∈ cs, c.isDigit = true := by
  simp [isDigits]

theorem isDigits_digits (n : Nat) : isDigits (digits n) = true :=
  isDigits_iff.mpr ⟨Nat.toDigits_ne_nil, fun _ => isDigit_of_mem_digits⟩

/-- A numeral that begins with a digit has no sign, and all of it is left. -/
theorem sign_cons {c : Char} (first : c.isDigit = true) (cs : List Char) :
    sign (c :: cs) = (false, c :: cs) := by
  unfold sign
  split
  · next minus =>
    cases minus
    exact absurd first (by decide)
  · next plus =>
    cases plus
    exact absurd first (by decide)
  · rfl

theorem sign_digits (n : Nat) : sign (digits n) = (false, digits n) := by
  obtain ⟨c, cs, eq, first, -⟩ := exists_digits_eq_cons n
  rw [eq, sign_cons first]

/-- An integer is read from its text. -/
theorem int?_ofInt (z : Int) : int? (ofInt z) = some z := by
  cases z with
  | ofNat n => simp [int?, ofInt, sign_digits, isDigits_digits, value_digits]
  | negSucc n =>
    simp only [int?, ofInt, sign, isDigits_digits, value_digits, if_true, Option.some.injEq]
    omega

/-- Every 32-bit integer is read from its text, the least one too. -/
theorem int32?_ofInt (n : Int32) : int32? (ofInt n.toInt) = some n := by
  have low := n.le_toInt
  have high := n.toInt_lt
  have fits : fits32 n.toInt = true := by
    rw [fits32, Bool.and_eq_true, decide_eq_true_iff, decide_eq_true_iff]
    exact ⟨low, high⟩
  rw [int32?, int?_ofInt]
  simp [fits]

/-- A count as a 32-bit integer: counts beyond the range saturate at its end. -/
def saturate (n : Nat) : Int32 := if n < Nat.pow 2 31 then Int32.ofNat n else Int32.maxValue

end Tacit.Numeral
