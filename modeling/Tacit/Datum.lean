import Tacit.Numeral
import Tacit.Double.Fixed

/-!
Data: scalars of three element types, and arrays of them. Operations work on data; every other
value of the language only moves data around.
-/

namespace Tacit

inductive Elem where
  | int
  | double
  | bool
deriving DecidableEq, Repr

namespace Elem

/-- The values of an element type. Integers have 32 bits and wrap. -/
abbrev Carrier : Elem → Type
  | .int => Int32
  | .double => Float
  | .bool => Bool

instance : (e : Elem) → DecidableEq e.Carrier
  | .int => inferInstanceAs (DecidableEq Int32)
  | .double => inferInstanceAs (DecidableEq Float)
  | .bool => inferInstanceAs (DecidableEq Bool)

/-- The value that stands for the result of folding an empty array. -/
def zero : (e : Elem) → e.Carrier
  | .int => 0
  | .double => 0.0
  | .bool => false

def boolText (b : Bool) : List Char :=
  if b then ['t', 'r', 'u', 'e'] else ['f', 'a', 'l', 's', 'e']

def text : (e : Elem) → e.Carrier → List Char
  | .int, n => Numeral.ofInt n.toInt
  | .double, x => (Double.parts x).text
  | .bool, b => boolText b

end Elem

inductive Datum where
  | scalar (e : Elem) (x : e.Carrier)
  | array (e : Elem) (xs : List e.Carrier)
deriving DecidableEq

/-- Items with one blank between neighbours. -/
def spaced (items : List (List Char)) : List Char := [' '].intercalate items

namespace Datum

/-- An array is written as its elements in parentheses. -/
def text : Datum → List Char
  | .scalar e x => e.text x
  | .array e xs => '(' :: spaced (xs.map e.text) ++ [')']

end Datum

end Tacit
