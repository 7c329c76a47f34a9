import Tacit.Store

/-!
The text of words. Tuples and executors show the words they hold; a block shows only that it is
one, since its body is not a value yet.
-/

namespace Tacit

def blockText : List Char := "user-defined block".toList

namespace Store

/-- The text of a word whose tuples and executors nest less than `depth` deep. -/
def textWithin (s : Store) : (depth : Nat) → Word → Except Fault (List Char)
  | 0, w => .error (.cyclic w)
  | depth + 1, w =>
    match w with
    | .placeholder n => .ok (placeholderText n)
    | .assignment => .ok [':']
    | .block _ => .ok blockText
    | .name i => do return (← s.name (.name i)).toList
    | .tuple i => do
      let t ← s.tuple (.tuple i)
      let items ← t.words.mapM (s.textWithin depth)
      return '[' :: spaced items ++ [']']
    | .executor i => do
      let words ← s.executor (.executor i)
      let items ← words.mapM (s.textWithin depth)
      return '|' :: spaced items ++ ['|']
    | .scalar e i => return (Datum.scalar e (← s.scalar e i)).text
    | .array e i => return (Datum.array e (← s.array e i)).text

/-- No chain of nested tuples and executors without repetition is longer than this. -/
def nestingBound (s : Store) : Nat := s.tuples.size + s.executors.size + 1

def display (s : Store) (w : Word) : Except Fault String :=
  return String.ofList (← s.textWithin s.nestingBound w)

def debugText (s : Store) (w : Word) : Except Fault String :=
  return w.kind.label ++ "(" ++ (← s.display w) ++ ")"

/-- The bindings with the texts of their words, in the order of the names. -/
def listBindings (s : Store) : Except Fault (List (String × String)) :=
  s.bindings.mapM fun (name, w) => return (name, ← s.display w)

end Store

end Tacit
