import Tacit.Builtin.Odometer
import Tacit.Builtin.Table

/-!
Calls of builtins: which overload a list of arguments selects, and what it gives.

Every argument can be read in one or more ways: as its own type first; an integer also as a
double; an array also element by element; the name of a builtin as each of its signatures. A
candidate chooses one reading for every argument. The candidates are tried in order, the first
argument changing fastest, and the first that an overload takes decides.
-/

namespace Tacit.Builtin

/-- What a call sees of an argument. -/
inductive Argument where
  | datum (d : Datum)
  /-- The name of a function. -/
  | function (name : String)
  /-- A value that no builtin takes. -/
  | other

/-! ### Candidates -/

/-- A way to read an argument. -/
structure Reading where
  type : ArgType
  /-- An array stands for its elements, one after the other, where a scalar is asked for. -/
  expanded : Bool
deriving DecidableEq

namespace Reading

def exact (t : ArgType) : Reading := ⟨t, false⟩

def elements (e : Elem) : Reading := ⟨.scalar e, true⟩

def text (r : Reading) : String := if r.expanded then r.type.text ++ "*" else r.type.text

end Reading

/-- The ways to read an argument, its own type first. The elements of an array are not
converted. -/
def Argument.readings : Argument → List Reading
  | .datum (.scalar .int _) => [.exact (.scalar .int), .exact (.scalar .double)]
  | .datum (.scalar e _) => [.exact (.scalar e)]
  | .datum (.array e _) => [.exact (.array e), .elements e]
  | .function name => (overloads name).map fun o => .exact (.ofSignature o.signature)
  | .other => []

/-- All choices of one item from each list. The choice from the first list changes fastest. -/
def choices {α : Type} : List (List α) → List (List α)
  | [] => [[]]
  | options :: rest => (choices rest).flatMap fun choice => options.map (· :: choice)

def candidates (args : List Argument) : List (List Reading) := choices (args.map Argument.readings)

/-! ### Application -/

def Argument.operand? (e : Elem) : Argument → Option (Operand e.Carrier)
  | .datum (.scalar e' x) => (e'.convert? e x).map .one
  | .datum (.array e' xs) => (e'.sameArray? e xs).map .many
  | _ => none

def Argument.array? (e : Elem) : Argument → Option (List e.Carrier)
  | .datum (.array e' xs) => e'.sameArray? e xs
  | _ => none

def Argument.operator? (e : Elem) : Argument → Option (e.Carrier → e.Carrier → Option e.Carrier)
  | .function name => Builtin.operator? name e
  | _ => none

/-- The result of an operation, if the arguments are of the types that it takes. -/
def Operation.apply? : Operation → List Argument → Option (Except OperationError Datum)
  | .map a r f, [x] => do
    let x ← x.operand? a
    return .ok ((x.map f).datum r)
  | .zip a r f, [x, y] => do
    let x ← x.operand? a
    let y ← y.operand? a
    return (Operand.zip f x y).map (·.datum r)
  | .generate a r f, [x] => do
    match ← x.operand? a with
    | .one x => return .ok (.array r (f x))
    | .many _ => none
  | .collapse a r f, [xs] => do
    let xs ← xs.array? a
    return .ok (.scalar r (f xs))
  | .rearrange a f, [xs] => do
    let xs ← xs.array? a
    return .ok (.array a (f xs))
  | .fold a, [g, xs] => do
    let g ← g.operator? a
    let xs ← xs.array? a
    return defined ((foldArray g a.zero xs).map (.scalar a))
  | .scan a, [g, xs] => do
    let g ← g.operator? a
    let xs ← xs.array? a
    return defined ((scanArray g xs).map (.array a))
  | _, _ => none

/-! ### Calls -/

/-- The overload that a candidate selects: its parameters have the types of the readings. One
with an array as result does not take expanded arguments. -/
def select? (name : String) (candidate : List Reading) : Option Overload := do
  let o ← find? name (candidate.map Reading.type)
  if candidate.any Reading.expanded && !o.signature.result.isScalar then none else some o

/-- What a candidate gives: nothing if no overload takes it, or if it pairs arrays of different
lengths. -/
def attempt (name : String) (args : List Argument) (candidate : List Reading) :
    Option (Except OperationError Datum) := do
  let o ← select? name candidate
  match ← o.operation.apply? args with
  | .error (.lengthMismatch _ _) => none
  | result => some result

def odometer (args : List Argument) : Odometer Reading := .start (args.map Argument.readings)

/-- The result of the first candidate that gives one, if any does. No overload takes more
arguments than the largest arity, so the candidates, whose number grows exponentially with the
arguments, are not tried for longer lists. -/
def call (name : String) (args : List Argument) : Option (Except OperationError Datum) :=
  if args.length ≤ maxArity name then
    (odometer args).search (attempt name args) (Odometer.total (args.map Argument.readings))
  else none

end Tacit.Builtin
