import Tacit.Datum

/-!
Words: what sentences are made of and what evaluation passes around. A word that stands for a
value is a slot in the column of its kind; the placeholders and the assignment marker stand for
themselves.
-/

namespace Tacit

/-- A word. Two words are equal when they are the same slot of the same column, not when the
values they stand for are equal. -/
inductive Word where
  | scalar (e : Elem) (slot : Nat)
  | array (e : Elem) (slot : Nat)
  | name (slot : Nat)
  /-- A group of words in brackets. -/
  | tuple (slot : Nat)
  /-- A list of stages between bars, which all receive the same argument. -/
  | executor (slot : Nat)
  /-- A group of words in braces, evaluated only when it meets an argument. -/
  | block (slot : Nat)
  /-- A numbered placeholder; number 0 is the bare one. -/
  | placeholder (number : Nat)
  /-- The marker between a name and the value it is bound to. -/
  | assignment
deriving DecidableEq, Repr

inductive Kind where
  | scalar (e : Elem)
  | array (e : Elem)
  | name
  | tuple
  | executor
  | block
  | placeholder
  | assignment
deriving DecidableEq, Repr

namespace Kind

/-- The name of a kind in diagnostic output. -/
def label : Kind → String
  | .scalar .int => "Int"
  | .scalar .double => "Double"
  | .scalar .bool => "Bool"
  | .array .int => "IntArray"
  | .array .double => "DoubleArray"
  | .array .bool => "BoolArray"
  | .name => "Name"
  | .tuple => "Tuple"
  | .executor => "Executor"
  | .block => "Block"
  | .placeholder => "Placeholder"
  | .assignment => "Assignment"

end Kind

namespace Word

def kind : Word → Kind
  | .scalar e _ => .scalar e
  | .array e _ => .array e
  | .name _ => .name
  | .tuple _ => .tuple
  | .executor _ => .executor
  | .block _ => .block
  | .placeholder _ => .placeholder
  | .assignment => .assignment

def index : Word → Nat
  | .scalar _ i | .array _ i | .name i | .tuple i | .executor i | .block i => i
  | .placeholder n => n
  | .assignment => 0

def ofKind : Kind → Nat → Word
  | .scalar e, i => .scalar e i
  | .array e, i => .array e i
  | .name, i => .name i
  | .tuple, i => .tuple i
  | .executor, i => .executor i
  | .block, i => .block i
  | .placeholder, n => .placeholder n
  | .assignment, _ => .assignment

/-- A word is given by its kind and its index. -/
@[simp] theorem ofKind_kind_index (w : Word) : ofKind w.kind w.index = w := by
  cases w <;> rfl

end Word

/-- The position of the component that a placeholder number picks, counted from zero. The bare
placeholder picks no single component. -/
def componentIndex : Nat → Option Nat
  | 0 => none
  | n + 1 => some n

def placeholderText : Nat → List Char
  | 0 => ['_']
  | n => '_' :: Numeral.digits n

/-- A sentence is a list of words, reduced from its end. -/
abbrev Sentence := List Word

/-- The words of a tuple. One written directly after a name is connected to it: `connectedName`
is the slot of that name. -/
structure Tuple where
  words : List Word
  connectedName : Option Nat
deriving DecidableEq, Repr

namespace Tuple

def isConnected (t : Tuple) : Bool := t.connectedName.isSome

def unconnected (words : List Word) : Tuple := ⟨words, none⟩

end Tuple

/-- What a slot of a column holds. -/
inductive Value where
  | datum (d : Datum)
  | name (text : String)
  | tuple (t : Tuple)
  | executor (words : List Word)
  | block (words : List Word)
deriving DecidableEq

namespace Value

def kind : Value → Kind
  | .datum (.scalar e _) => .scalar e
  | .datum (.array e _) => .array e
  | .name _ => .name
  | .tuple _ => .tuple
  | .executor _ => .executor
  | .block _ => .block

end Value

end Tacit
