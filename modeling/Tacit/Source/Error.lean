/-!
What can be wrong with a source text, and on which line.
-/

namespace Tacit

/-- Why a source text is refused. -/
inductive ParseError.Cause where
  | unexpectedToken (text : String)
  | emptyArray
  /-- The elements of an array literal are of several types. -/
  | mixedArray
  /-- A line ends before the delimiter that closes its innermost group. -/
  | unterminatedGroup (delimiter : Char)
  /-- An integer that 32 bits do not hold. -/
  | literalTooLarge (literal : String)
deriving DecidableEq, Repr

structure ParseError where
  cause : ParseError.Cause
  /-- Lines are counted from one. -/
  line : Nat
deriving DecidableEq, Repr

namespace ParseError

def Cause.message : Cause → String
  | .unexpectedToken text => "Unexpected token: " ++ text ++ "."
  | .emptyArray => "Array literals cannot be empty."
  | .mixedArray => "Array literals must hold elements of a single type."
  | .unterminatedGroup delimiter =>
    "Expected closing '" ++ String.singleton delimiter ++ "' before the end of the line."
  | .literalTooLarge literal => "Literal " ++ literal ++ " is too large."

def message (e : ParseError) : String :=
  "Error on line " ++ Nat.repr e.line ++ ": " ++ e.cause.message

end ParseError

end Tacit
