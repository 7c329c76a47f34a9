import Tacit.Builtin.Signature

/-!
Operations on data. An operation on scalars applies to arrays too, element by element: an array
is matched with an array of the same length, and a scalar is used with every element.

An operation may be undefined at some scalars; integer division by zero is the only such case.
-/

namespace Tacit

namespace Elem

/-- A scalar where one of another type is asked for: an integer serves as the double of the same
value, and no other type serves as another. -/
def convert? : (src dst : Elem) → src.Carrier → Option dst.Carrier
  | .int, .int, x => some x
  | .int, .double, x => some (Float.ofInt x.toInt)
  | .double, .double, x => some x
  | .bool, .bool, x => some x
  | _, _, _ => none

/-- The elements of an array where one of another type is asked for. Elements are not
converted. -/
def sameArray? : (src dst : Elem) → List src.Carrier → Option (List dst.Carrier)
  | .int, .int, xs => some xs
  | .double, .double, xs => some xs
  | .bool, .bool, xs => some xs
  | _, _, _ => none

end Elem

namespace Builtin

inductive OperationError where
  | lengthMismatch (left right : Nat)
  | divisionByZero
deriving DecidableEq, Repr

def defined {α : Type} : Option α → Except OperationError α
  | some x => .ok x
  | none => .error .divisionByZero

/-! ### Element by element -/

/-- An operand of an operation on scalars. -/
inductive Operand (α : Type) where
  | one (x : α)
  | many (xs : List α)

namespace Operand

def datum (e : Elem) : Operand e.Carrier → Datum
  | .one x => .scalar e x
  | .many xs => .array e xs

def map {α β : Type} (f : α → β) : Operand α → Operand β
  | .one x => .one (f x)
  | .many xs => .many (xs.map f)

/-- Two arrays are compared in length before the first element is computed. -/
def zip {α β : Type} (f : α → α → Option β) :
    Operand α → Operand α → Except OperationError (Operand β)
  | .one x, .one y => defined ((f x y).map .one)
  | .one x, .many ys => defined ((ys.mapM (f x)).map .many)
  | .many xs, .one y => defined ((xs.mapM (f · y)).map .many)
  | .many xs, .many ys =>
    if xs.length = ys.length then
      defined (((xs.zip ys).mapM fun pair => f pair.1 pair.2).map .many)
    else .error (.lengthMismatch xs.length ys.length)

end Operand

/-! ### Folds and scans -/

/-- The left fold of an array, starting with its first element. -/
def foldArray {α : Type} (f : α → α → Option α) (zero : α) : List α → Option α
  | [] => some zero
  | x :: xs => xs.foldlM f x

/-- The accumulators of a fold from `last` on, after those in `earlier`, which come last first. -/
def scanFrom {α : Type} (f : α → α → Option α) (earlier : List α) (last : α) :
    List α → Option (List α)
  | [] => some (last :: earlier).reverse
  | x :: xs =>
    match f last x with
    | some next => scanFrom f (last :: earlier) next xs
    | none => none

/-- All accumulators of the left fold of an array. -/
def scanArray {α : Type} (f : α → α → Option α) : List α → Option (List α)
  | [] => some []
  | x :: xs => scanFrom f [] x xs

/-! ### Operations -/

/-- What a builtin does with its arguments, in the element types that it is for. -/
inductive Operation where
  /-- Scalar to scalar. -/
  | map (a r : Elem) (f : a.Carrier → r.Carrier)
  /-- Two scalars to a scalar. -/
  | zip (a r : Elem) (f : a.Carrier → a.Carrier → Option r.Carrier)
  /-- Scalar to array. -/
  | generate (a r : Elem) (f : a.Carrier → List r.Carrier)
  /-- Array to scalar. -/
  | collapse (a r : Elem) (f : List a.Carrier → r.Carrier)
  /-- Array to array. -/
  | rearrange (a : Elem) (f : List a.Carrier → List a.Carrier)
  /-- The fold of an array by an operator, which is given by the name of a builtin. -/
  | fold (a : Elem)
  /-- The accumulators of such a fold. -/
  | scan (a : Elem)

namespace Operation

def operatorSignature (a : Elem) : Signature := ⟨[.scalar a, .scalar a], .scalar a⟩

def signature : Operation → Signature
  | .map a r _ => ⟨[.scalar a], .scalar r⟩
  | .zip a r _ => ⟨[.scalar a, .scalar a], .scalar r⟩
  | .generate a r _ => ⟨[.scalar a], .array r⟩
  | .collapse a r _ => ⟨[.array a], .scalar r⟩
  | .rearrange a _ => ⟨[.array a], .array a⟩
  | .fold a => ⟨[.ofSignature (operatorSignature a), .array a], .scalar a⟩
  | .scan a => ⟨[.ofSignature (operatorSignature a), .array a], .array a⟩

/-- The binary operator on an element type that an operation is, if it is one. -/
def operator? (e : Elem) : Operation → Option (e.Carrier → e.Carrier → Option e.Carrier)
  | .zip a r f =>
    match e, a, r with
    | .int, .int, .int => some f
    | .double, .double, .double => some f
    | .bool, .bool, .bool => some f
    | _, _, _ => none
  | _ => none

end Operation

end Builtin

end Tacit
