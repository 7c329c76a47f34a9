import Tacit.Numeral
import Tacit.Double.Parts

/-!
The functions behind the builtins, where they are more than one operator of the element type.
Integers wrap modulo `2 ^ 32`; the only undefined case is division by zero.

* `sortDoubles_eq_of_perm`: how an array of doubles is arranged does not matter for sorting it.
-/

namespace Tacit.Builtin

/-- Integer division, truncated toward zero. It is undefined for a zero divisor. -/
def divide (x y : Int32) : Option Int32 := if y = 0 then none else some (x / y)

/-- Division is undefined for a zero divisor only. -/
theorem divide_eq_none_iff {x y : Int32} : divide x y = none ↔ y = 0 := by
  simp [divide]

/-- The nearest integral value toward zero. The result keeps the sign, also that of a zero. -/
def truncate (x : Float) : Float := if x < 0.0 then x.ceil else x.floor

/-- The integers from one to `n`; none if `n` is not positive. -/
def upTo (n : Int32) : List Int32 := (List.range n.toInt.toNat).map fun i => Int32.ofNat (i + 1)

/-- The number of elements, as far as an integer can tell it. -/
def length {α : Type} (xs : List α) : Int32 := Numeral.saturate xs.length

def sortInts (xs : List Int32) : List Int32 := xs.mergeSort fun x y => x ≤ y

def sortDoubles (xs : List Float) : List Float := xs.mergeSort Double.le

/-- A sorted array of doubles goes up in the total order. -/
theorem pairwise_sortDoubles (xs : List Float) :
    (sortDoubles xs).Pairwise fun x y => Double.le x y = true :=
  @List.pairwise_mergeSort _ Double.le (fun _ _ _ => Double.le_trans) Double.le_total xs

/-- The sorted array does not depend on how the elements were arranged, the two zeros included. -/
theorem sortDoubles_eq_of_perm {xs ys : List Float} (perm : xs.Perm ys) :
    sortDoubles xs = sortDoubles ys := by
  have rearranged : (sortDoubles xs).Perm (sortDoubles ys) :=
    ((List.mergeSort_perm xs _).trans perm).trans (List.mergeSort_perm ys _).symm
  exact rearranged.eq_of_pairwise (fun _ _ _ _ => Double.le_antisymm) (pairwise_sortDoubles xs)
    (pairwise_sortDoubles ys)

def sortBools (xs : List Bool) : List Bool := xs.mergeSort fun x y => !x || y

def sumInts (xs : List Int32) : Int32 := xs.foldl (· + ·) 0

/-- The sum from left to right. It starts from negative zero, which is neutral for every double
including negative zero itself. -/
def sumDoubles (xs : List Float) : Float := xs.foldl (· + ·) (-0.0)

def allOf (xs : List Bool) : Bool := xs.all id

def anyOf (xs : List Bool) : Bool := xs.any id

def noneOf (xs : List Bool) : Bool := !anyOf xs

end Tacit.Builtin
