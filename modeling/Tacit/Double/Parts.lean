/-!
Doubles by their bits: their parts, which are a sign and a magnitude as a multiple of the smallest
positive double, and their total order. The rules about the text and the order of doubles are stated
on bits and parts, in exact arithmetic on natural numbers.

The total order has the negative numbers by falling magnitude, then negative zero, positive zero and
the positive numbers. It orders all values, where the arithmetical comparison leaves some
incomparable and the two zeros equal. The order has a limit: of the values that are no number there
is one only here, which has no sign and comes last. By the bits of IEEE 754, one with a minus sign
would come first, before the negative infinity.

* `le_trans`, `le_total`, `le_antisymm`: the order is total, and equal in it are equal values only.
-/

namespace Tacit.Double

/-- The number of binary places of a double's unit: the smallest positive double is
`1 / 2 ^ unitPlaces`. -/
def unitPlaces : Nat := 1074

/-- What a double is: not a number, an infinity, or `units / 2 ^ unitPlaces` with a sign. Zero
has a sign too. -/
inductive Parts where
  | nan
  | infinite (negative : Bool)
  | finite (negative : Bool) (units : Nat)
deriving DecidableEq, Repr

/-- The magnitude bits of a double: all but the sign bit. -/
def magnitude (bits : Nat) : Nat := bits % Nat.pow 2 63

def isNegative (bits : Nat) : Bool := Nat.pow 2 63 ≤ bits

/-- The parts that 64 bits encode. A biased exponent of zero marks the numbers below the normal
range, which have no implicit leading bit. -/
def Parts.ofBits (bits : Nat) : Parts :=
  let biased := magnitude bits / Nat.pow 2 52
  let fraction := bits % Nat.pow 2 52
  if biased = 2047 then
    if fraction = 0 then .infinite (isNegative bits) else .nan
  else if biased = 0 then .finite (isNegative bits) fraction
  else .finite (isNegative bits) ((fraction + Nat.pow 2 52) * Nat.pow 2 (biased - 1))

def parts (x : Float) : Parts := .ofBits x.toBits.toNat

/-! ### Total order -/

/-- The place of a bit pattern in the total order. -/
def rank (x : Float) : Int :=
  let bits := x.toBits.toNat
  if bits < Nat.pow 2 63 then bits else Nat.pow 2 63 - 1 - (bits : Int)

def le (x y : Float) : Bool := rank x ≤ rank y

theorem le_trans {x y z : Float} (hxy : le x y = true) (hyz : le y z = true) : le x z = true := by
  simp only [le, decide_eq_true_eq] at *
  omega

/-- Any two values can be compared, also with the one that is no number. -/
theorem le_total (x y : Float) : (le x y || le y x) = true := by
  simp only [le, Bool.or_eq_true, decide_eq_true_eq]
  omega

/-- A place in the order tells the bits, so that the two zeros are apart. -/
theorem rank_inj {x y : Float} (same : rank x = rank y) : x = y := by
  have bits : x.toBits = y.toBits := by
    rw [← UInt64.toNat_inj]
    simp only [rank] at same
    split at same <;> split at same <;> omega
  obtain ⟨_, _⟩ := x
  obtain ⟨_, _⟩ := y
  cases bits
  rfl

/-- Values at the same place are the same, down to the sign of a zero. -/
theorem le_antisymm {x y : Float} (hxy : le x y = true) (hyx : le y x = true) : x = y := by
  simp only [le, decide_eq_true_eq] at *
  exact rank_inj (Int.le_antisymm hxy hyx)

end Tacit.Double
