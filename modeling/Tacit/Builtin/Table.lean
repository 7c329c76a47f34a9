import Tacit.Builtin.Arithmetic
import Tacit.Builtin.Operation

/-!
The table of builtins. A name may stand for several operations; its overloads are told apart by
their parameter types, and their order in the table is the order in which they are listed.
-/

namespace Tacit.Builtin

structure Overload where
  name : String
  operation : Operation

namespace Overload

def signature (o : Overload) : Signature := o.operation.signature

def text (o : Overload) : String := o.name ++ " " ++ o.signature.text

end Overload

/-! ### Entries -/

private def unaryOn (name : String) (e : Elem) (f : e.Carrier → e.Carrier) : Overload :=
  ⟨name, .map e e f⟩

private def binaryOn (name : String) (e : Elem) (f : e.Carrier → e.Carrier → e.Carrier) : Overload :=
  ⟨name, .zip e e fun x y => some (f x y)⟩

private def relationOn (name : String) (e : Elem) (f : e.Carrier → e.Carrier → Bool) : Overload :=
  ⟨name, .zip e .bool fun x y => some (f x y)⟩

/-- All overloads. -/
def table : List Overload := [
  ⟨"ioata", .generate .int .int upTo⟩,
  unaryOn "inc" .int (· + 1),
  unaryOn "inc" .double (· + 1.0),
  unaryOn "dec" .int (· - 1),
  unaryOn "dec" .double (· - 1.0),
  unaryOn "neg" .int (-·),
  unaryOn "neg" .double (-·),
  unaryOn "abs" .int Int32.abs,
  unaryOn "abs" .double Float.abs,
  unaryOn "sqrt" .double Float.sqrt,
  unaryOn "exp" .double Float.exp,
  unaryOn "log" .double Float.log,
  unaryOn "log10" .double Float.log10,
  unaryOn "sin" .double Float.sin,
  unaryOn "cos" .double Float.cos,
  unaryOn "tan" .double Float.tan,
  unaryOn "floor" .double Float.floor,
  unaryOn "ceil" .double Float.ceil,
  unaryOn "trunc" .double truncate,
  ⟨"length", .collapse .int .int length⟩,
  ⟨"length", .collapse .double .int length⟩,
  ⟨"length", .collapse .bool .int length⟩,
  ⟨"sort", .rearrange .int sortInts⟩,
  ⟨"sort", .rearrange .double sortDoubles⟩,
  ⟨"sort", .rearrange .bool sortBools⟩,
  binaryOn "add" .int (· + ·),
  binaryOn "add" .double (· + ·),
  binaryOn "sub" .int (· - ·),
  binaryOn "sub" .double (· - ·),
  binaryOn "mul" .int (· * ·),
  binaryOn "mul" .double (· * ·),
  ⟨"div", .zip .int .int divide⟩,
  binaryOn "div" .double (· / ·),
  binaryOn "and" .bool (· && ·),
  binaryOn "or" .bool (· || ·),
  unaryOn "not" .bool (!·),
  relationOn "equals" .int (· == ·),
  relationOn "equals" .double (· == ·),
  relationOn "equals" .bool (· == ·),
  relationOn "not_equals" .int (· != ·),
  relationOn "not_equals" .double (· != ·),
  relationOn "not_equals" .bool (· != ·),
  ⟨"all_of", .collapse .bool .bool allOf⟩,
  ⟨"any_of", .collapse .bool .bool anyOf⟩,
  ⟨"none_of", .collapse .bool .bool noneOf⟩,
  ⟨"sum", .collapse .int .int sumInts⟩,
  ⟨"sum", .collapse .double .double sumDoubles⟩,
  ⟨"to_double", .map .int .double fun x => Float.ofInt x.toInt⟩,
  unaryOn "to_double" .double id,
  ⟨"foldl", .fold .int⟩,
  ⟨"foldl", .fold .double⟩,
  ⟨"foldl", .fold .bool⟩,
  ⟨"scanl", .scan .int⟩,
  ⟨"scanl", .scan .double⟩,
  ⟨"scanl", .scan .bool⟩]

/-! ### Queries -/

def overloads (name : String) : List Overload := table.filter fun o => o.name = name

def isBuiltin (name : String) : Bool := !(overloads name).isEmpty

/-- The largest number of parameters among the overloads of a name, zero if there are none. -/
def maxArity (name : String) : Nat :=
  (overloads name).foldl (fun arity o => max arity o.signature.params.length) 0

def find? (name : String) (params : List ArgType) : Option Overload :=
  (overloads name).find? fun o => o.signature.params = params

def findSignature? (name : String) (s : Signature) : Option Overload :=
  (overloads name).find? fun o => o.signature = s

/-- The binary operator on an element type that a name stands for. -/
def operator? (name : String) (e : Elem) : Option (e.Carrier → e.Carrier → Option e.Carrier) :=
  (findSignature? name (Operation.operatorSignature e)).bind fun o => o.operation.operator? e

/-! ### Constants -/

/-- The names bound in every new session. -/
def constants : List (String × Float) := [
  ("pi", 3.141592653589793),
  ("e", 2.718281828459045)]

end Tacit.Builtin
