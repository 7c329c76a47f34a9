import Tacit.Builtin.Operation
import Tacit.Store.Display

/-!
What can go wrong when words are folded. An error carries the words it is about; their text is
found in the store that the error arose in.
-/

namespace Tacit

inductive EvalError where
  /-- The name is bound to nothing, and no value by itself. -/
  | nameNotFound (name : Word)
  /-- A builtin or bound name was to be bound. -/
  | nameAlreadyTaken (name : Word)
  | cannotAssign (target value : Word)
  | noMatchingOverload (function argument : Word)
  | placeholderOutOfRange (placeholder argument : Word)
  | placeholderOntoPlaceholder (left right : Word)
  /-- Two words that no rule folds, or one that is no value by itself. -/
  | cannotFold (left : Word) (right : Option Word)
  | operation (e : Builtin.OperationError)
deriving DecidableEq, Repr

namespace Builtin

def OperationError.message : OperationError → String
  | .lengthMismatch left right =>
    "Array lengths do not match: " ++ Nat.repr left ++ " vs " ++ Nat.repr right ++ "."
  | .divisionByZero => "Division by zero."

end Builtin

namespace EvalError

/-- The words that an error is about. -/
def words : EvalError → List Word
  | .nameNotFound name => [name]
  | .nameAlreadyTaken name => [name]
  | .cannotAssign target value => [target, value]
  | .noMatchingOverload function argument => [function, argument]
  | .placeholderOutOfRange placeholder argument => [placeholder, argument]
  | .placeholderOntoPlaceholder left right => [left, right]
  | .cannotFold left right => left :: right.toList
  | .operation _ => []

/-- The message alone, without the words. -/
def message : EvalError → String
  | .nameNotFound _ => "Name not found."
  | .nameAlreadyTaken _ => "Name is already taken."
  | .cannotAssign _ _ => "Only a name can be assigned to."
  | .noMatchingOverload _ _ => "No overload of the function accepts the argument."
  | .placeholderOutOfRange placeholder _ =>
    "Placeholder " ++ String.ofList (placeholderText placeholder.index) ++ " is out of range."
  | .placeholderOntoPlaceholder _ _ => "Cannot fold a placeholder to another."
  | .cannotFold _ none => "Cannot fold word."
  | .cannotFold _ (some _) => "Could not fold words."
  | .operation e => e.message

/-- The message, and a line for each word with its text. -/
def report (s : Store) (e : EvalError) : Except Fault String := do
  let texts ← e.words.mapM s.display
  return texts.foldl (fun report text => report ++ "\nword: " ++ text) e.message

end EvalError

/-- Why an evaluation gives no word. -/
inductive Failure where
  /-- The program is at fault. -/
  | error (e : EvalError)
  /-- A word does not fit the store. -/
  | fault (f : Fault)
  /-- The folds nest deeper than the limit. This says nothing about a higher limit. -/
  | depthExceeded
deriving DecidableEq, Repr

end Tacit
