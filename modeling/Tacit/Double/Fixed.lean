import Tacit.Numeral
import Tacit.Double.Parts

/-!
Fixed-point text of doubles. To write one, the exact value is rounded to a number of decimal places,
a half going to the even neighbour, and trailing zeros are dropped as long as one place remains.
What is read is the double nearest to the number written.

* `roundDiv_le`, `le_roundDiv`: the rounded quotient is within half a unit of the exact one.
* `even_roundDiv_of_tie`: a tie goes to the even neighbour.
-/

namespace Tacit.Double

/-- Whether rounding `num / den` to the nearest number goes up: the rest is over half of the
divisor, or exactly half of it above an odd quotient. -/
def RoundsUp (num den : Nat) : Prop :=
  den < 2 * (num % den) ∨ 2 * (num % den) = den ∧ num / den % 2 = 1

instance (num den : Nat) : Decidable (RoundsUp num den) := inferInstanceAs (Decidable (_ ∨ _))

/-- The quotient `num / den` rounded to the nearest natural number, a tie to the even one. -/
def roundDiv (num den : Nat) : Nat :=
  if RoundsUp num den then num / den + 1 else num / den

/-- The rounded quotient is at most half a unit above the exact one. -/
theorem roundDiv_le (num den : Nat) : 2 * (roundDiv num den * den) ≤ 2 * num + den := by
  have h := Nat.div_add_mod num den
  rw [Nat.mul_comm] at h
  by_cases up : RoundsUp num den
  · rw [roundDiv, if_pos up, Nat.add_mul, Nat.one_mul]
    unfold RoundsUp at up
    omega
  · rw [roundDiv, if_neg up]
    omega

/-- The rounded quotient is at most half a unit below the exact one. -/
theorem le_roundDiv (num : Nat) {den : Nat} (pos : 0 < den) :
    2 * num ≤ 2 * (roundDiv num den * den) + den := by
  have h := Nat.div_add_mod num den
  have hlt := Nat.mod_lt num pos
  rw [Nat.mul_comm] at h
  by_cases up : RoundsUp num den
  · rw [roundDiv, if_pos up, Nat.add_mul, Nat.one_mul]
    omega
  · rw [roundDiv, if_neg up]
    unfold RoundsUp at up
    omega

/-- A quotient in the middle of two numbers is rounded to the even one. -/
theorem even_roundDiv_of_tie {num den : Nat} (tie : 2 * (num % den) = den) :
    roundDiv num den % 2 = 0 := by
  by_cases up : RoundsUp num den
  · rw [roundDiv, if_pos up]
    unfold RoundsUp at up
    omega
  · rw [roundDiv, if_neg up]
    unfold RoundsUp at up
    omega

def places : Nat := 6

/-- A count of units as a count of the last decimal place. -/
def scaled (units : Nat) : Nat := roundDiv (units * Nat.pow 10 places) (Nat.pow 2 unitPlaces)

def padded (width n : Nat) : List Char :=
  let ds := Numeral.digits n
  List.replicate (width - ds.length) '0' ++ ds

/-- A count of the last decimal place as a number with a point and all places. -/
def fixed (n : Nat) : List Char :=
  Numeral.digits (n / Nat.pow 10 places) ++ '.' :: padded places (n % Nat.pow 10 places)

/-- A minus sign for a negative number; negative zero has one. -/
def signed (negative : Bool) (cs : List Char) : List Char :=
  if negative then '-' :: cs else cs

/-- The text of each kind of double, of a number with all places. -/
def Parts.fixed : Parts → List Char
  | .nan => ['N', 'a', 'N']
  | .infinite negative => signed negative ['i', 'n', 'f']
  | .finite negative units => signed negative (Double.fixed (scaled units))

/-- A text with a point loses the zeros at its end. Where the point is the last that is left, one
zero comes back. -/
def trimmed (cs : List Char) : List Char :=
  if cs.contains '.' then
    let kept := (cs.reverse.dropWhile (· == '0')).reverse
    if kept.getLast? = some '.' then kept ++ ['0'] else kept
  else cs

/-- The text of each kind of double. -/
def Parts.text (p : Parts) : List Char := trimmed p.fixed

def text (x : Float) : String := String.ofList (parts x).text

/-! ### Reading -/

/-- The double that an optional sign, digits, a point and digits denote. A minus sign makes a
zero negative. -/
def ofLiteral (cs : List Char) : Float :=
  let (negative, ds) := Numeral.sign cs
  let whole := ds.takeWhile Char.isDigit
  let fraction := (ds.dropWhile Char.isDigit).drop 1
  let x := Float.ofScientific (Numeral.value (whole ++ fraction)) true fraction.length
  if negative then -x else x

end Tacit.Double
