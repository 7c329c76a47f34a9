import Tacit.Store.Bindings

/-!
The store: every value of a session in append-only columns, one for each kind, with the binding
table and the flag of a pending assignment. A word stays valid once it is made, because columns
only grow.

* `get?_create`: a new value is found under its word, and nothing else changes.
-/

namespace Tacit

structure Columns (e : Elem) where
  scalars : Array e.Carrier
  arrays : Array (List e.Carrier)

namespace Columns

def empty {e : Elem} : Columns e := ⟨#[], #[]⟩

def pushScalar {e : Elem} (c : Columns e) (x : e.Carrier) : Columns e :=
  { c with scalars := c.scalars.push x }

def pushArray {e : Elem} (c : Columns e) (xs : List e.Carrier) : Columns e :=
  { c with arrays := c.arrays.push xs }

end Columns

structure Store where
  ints : Columns .int
  doubles : Columns .double
  bools : Columns .bool
  names : Array String
  tuples : Array Tuple
  executors : Array (List Word)
  blocks : Array (List Word)
  bindings : Bindings
  /-- The next fold has to bind a name: the assignment marker was met, the name not yet. -/
  pending : Bool

/-- A word that cannot be read as asked. Programs never meet one; only words made by hand do. -/
inductive Fault where
  | wrongKind (found expected : Kind)
  /-- The slot lies beyond the end of its column. -/
  | dangling (w : Word)
  /-- The value contains itself, so it has no finite text. -/
  | cyclic (w : Word)
deriving DecidableEq, Repr

namespace Fault

def message : Fault → String
  | .wrongKind found expected => s!"read a {found.label} word as {expected.label}"
  | .dangling w => s!"slot {w.index} of the {w.kind.label} column is empty"
  | .cyclic w => s!"the {w.kind.label} at slot {w.index} contains itself"

end Fault

namespace Store

/-- The store without values and bindings. -/
def empty : Store where
  ints := .empty
  doubles := .empty
  bools := .empty
  names := #[]
  tuples := #[]
  executors := #[]
  blocks := #[]
  bindings := []
  pending := false

/-! ### Columns -/

def columns (s : Store) : (e : Elem) → Columns e
  | .int => s.ints
  | .double => s.doubles
  | .bool => s.bools

def modifyColumns (s : Store) : (e : Elem) → (Columns e → Columns e) → Store
  | .int, f => { s with ints := f s.ints }
  | .double, f => { s with doubles := f s.doubles }
  | .bool, f => { s with bools := f s.bools }

/-- Appends a value to the column of its kind. The word is the slot that the value got. -/
def create (s : Store) : Value → Word × Store
  | .datum (.scalar e x) =>
    (.scalar e (s.columns e).scalars.size, s.modifyColumns e (·.pushScalar x))
  | .datum (.array e xs) =>
    (.array e (s.columns e).arrays.size, s.modifyColumns e (·.pushArray xs))
  | .name text => (.name s.names.size, { s with names := s.names.push text })
  | .tuple t => (.tuple s.tuples.size, { s with tuples := s.tuples.push t })
  | .executor words => (.executor s.executors.size, { s with executors := s.executors.push words })
  | .block words => (.block s.blocks.size, { s with blocks := s.blocks.push words })

/-- The value that a word stands for. The two markers stand for none. -/
def get? (s : Store) : Word → Option Value
  | .scalar e i => (s.columns e).scalars[i]?.map fun x => .datum (.scalar e x)
  | .array e i => (s.columns e).arrays[i]?.map fun xs => .datum (.array e xs)
  | .name i => s.names[i]?.map .name
  | .tuple i => s.tuples[i]?.map .tuple
  | .executor i => s.executors[i]?.map .executor
  | .block i => s.blocks[i]?.map .block
  | .placeholder _ => none
  | .assignment => none

/-- A new word is of the kind of its value. -/
@[simp] theorem kind_create (s : Store) (v : Value) : (s.create v).1.kind = v.kind := by
  rcases v with (⟨e, x⟩ | ⟨e, xs⟩) | _ | _ | _ | _ <;> rfl

@[simp] theorem bindings_create (s : Store) (v : Value) :
    (s.create v).2.bindings = s.bindings := by
  rcases v with (⟨e, x⟩ | ⟨e, xs⟩) | _ | _ | _ | _ <;> first | rfl | cases e <;> rfl

@[simp] theorem pending_create (s : Store) (v : Value) : (s.create v).2.pending = s.pending := by
  rcases v with (⟨e, x⟩ | ⟨e, xs⟩) | _ | _ | _ | _ <;> first | rfl | cases e <;> rfl

@[simp] theorem columns_modifyColumns_self (s : Store) (e : Elem) (f : Columns e → Columns e) :
    (s.modifyColumns e f).columns e = f (s.columns e) := by
  cases e <;> rfl

/-- The columns of another element type stay as they are. -/
theorem columns_modifyColumns_of_ne (s : Store) {e e' : Elem} (ne : e' ≠ e)
    (f : Columns e → Columns e) : (s.modifyColumns e f).columns e' = s.columns e' := by
  cases e <;> cases e' <;> first | rfl | exact absurd rfl ne

/-- After a value is made, its word stands for it and every other word stands for what it stood
for before. -/
theorem get?_create (s : Store) (v : Value) (w : Word) :
    (s.create v).2.get? w = if w = (s.create v).1 then some v else s.get? w := by
  rcases v with (⟨e, x⟩ | ⟨e, xs⟩) | text | t | words | words
  case datum.scalar =>
    cases w with
    | scalar e' i =>
      by_cases h : e' = e
      · subst h
        by_cases hi : i = (s.columns e').scalars.size <;>
          simp [create, get?, Columns.pushScalar, Array.getElem?_push, hi]
      · simp [create, get?, columns_modifyColumns_of_ne, h]
    | array e' i =>
      by_cases h : e' = e
      · subst h
        simp [create, get?, Columns.pushScalar]
      · simp [create, get?, columns_modifyColumns_of_ne, h]
    | _ => cases e <;> simp [create, get?, modifyColumns]
  case datum.array =>
    cases w with
    | scalar e' i =>
      by_cases h : e' = e
      · subst h
        simp [create, get?, Columns.pushArray]
      · simp [create, get?, columns_modifyColumns_of_ne, h]
    | array e' i =>
      by_cases h : e' = e
      · subst h
        by_cases hi : i = (s.columns e').arrays.size <;>
          simp [create, get?, Columns.pushArray, Array.getElem?_push, hi]
      · simp [create, get?, columns_modifyColumns_of_ne, h]
    | _ => cases e <;> simp [create, get?, modifyColumns]
  all_goals
    cases w with
    | scalar e i => cases e <;> simp [create, get?, columns]
    | array e i => cases e <;> simp [create, get?, columns]
    | _ => simp [create, get?, Array.getElem?_push] <;> split <;> simp_all

/-! ### Reading -/

private def slot {α : Type} (w : Word) : Option α → Except Fault α
  | some a => .ok a
  | none => .error (.dangling w)

/-- The value of a word of the expected kind. -/
def read (s : Store) (expected : Kind) (w : Word) : Except Fault Value :=
  if w.kind = expected then slot w (s.get? w) else .error (.wrongKind w.kind expected)

def scalar (s : Store) (e : Elem) (i : Nat) : Except Fault e.Carrier :=
  slot (.scalar e i) (s.columns e).scalars[i]?

def array (s : Store) (e : Elem) (i : Nat) : Except Fault (List e.Carrier) :=
  slot (.array e i) (s.columns e).arrays[i]?

def name (s : Store) : Word → Except Fault String
  | .name i => slot (.name i) s.names[i]?
  | w => .error (.wrongKind w.kind .name)

def tuple (s : Store) : Word → Except Fault Tuple
  | .tuple i => slot (.tuple i) s.tuples[i]?
  | w => .error (.wrongKind w.kind .tuple)

def executor (s : Store) : Word → Except Fault (List Word)
  | .executor i => slot (.executor i) s.executors[i]?
  | w => .error (.wrongKind w.kind .executor)

def block (s : Store) : Word → Except Fault (List Word)
  | .block i => slot (.block i) s.blocks[i]?
  | w => .error (.wrongKind w.kind .block)

section Reading

variable {s : Store} {i : Nat}

theorem scalar_eq_ok {e : Elem} {x : e.Carrier} (found : (s.columns e).scalars[i]? = some x) :
    s.scalar e i = .ok x := by
  rw [scalar, found, slot]

theorem array_eq_ok {e : Elem} {xs : List e.Carrier}
    (found : (s.columns e).arrays[i]? = some xs) : s.array e i = .ok xs := by
  rw [array, found, slot]

theorem name_eq_ok {text : String} (found : s.names[i]? = some text) :
    s.name (.name i) = .ok text := by
  rw [name, found, slot]

/-- A word for a name that is not there dangles. -/
theorem name_eq_error (missing : s.names[i]? = none) :
    s.name (.name i) = .error (.dangling (.name i)) := by
  rw [name, missing, slot]

theorem tuple_eq_ok {t : Tuple} (found : s.tuples[i]? = some t) :
    s.tuple (.tuple i) = .ok t := by
  rw [tuple, found, slot]

theorem executor_eq_ok {words : List Word} (found : s.executors[i]? = some words) :
    s.executor (.executor i) = .ok words := by
  rw [executor, found, slot]

theorem block_eq_ok {words : List Word} (found : s.blocks[i]? = some words) :
    s.block (.block i) = .ok words := by
  rw [block, found, slot]

end Reading

/-- The components of a word: the elements of a tuple; any other word is its own single
component. -/
def components (s : Store) : Word → Except Fault (List Word)
  | .tuple i => return (← s.tuple (.tuple i)).words
  | w => .ok [w]

/-- The component at a position, counted from zero, if there is one. A word that is no tuple is
found at the first position only. -/
def component (s : Store) (w : Word) (i : Nat) : Except Fault (Option Word) :=
  match w with
  | .tuple slot => return (← s.tuple (.tuple slot)).words[i]?
  | w => .ok (if i = 0 then some w else none)

/-- The number of components: the length of a tuple, and one for any other word. -/
def componentCount (s : Store) : Word → Except Fault Nat
  | .tuple i => return (← s.tuple (.tuple i)).words.length
  | _ => .ok 1

/-! ### Bindings -/

def lookup (s : Store) (name : String) : Option Word := s.bindings.lookup name

def isBound (s : Store) (name : String) : Bool := (s.lookup name).isSome

/-- Binds a name without asking whether it is free. -/
def bind (s : Store) (name : String) (w : Word) : Store :=
  { s with bindings := s.bindings.insert name w }

end Store

end Tacit
