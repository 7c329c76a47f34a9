import Tacit.Datum

/-!
The types of builtins' parameters and results. A builtin may take another builtin as a parameter,
which is then given by its name and has to have a certain signature.
-/

namespace Tacit.Builtin

inductive ArgType where
  | scalar (e : Elem)
  | array (e : Elem)
  /-- A builtin with these parameter types and this result type. -/
  | function (params : List ArgType) (result : ArgType)

mutual

def ArgType.decEq : (a b : ArgType) → Decidable (a = b)
  | .scalar e, .scalar e' => decidable_of_iff (e = e') (by simp)
  | .array e, .array e' => decidable_of_iff (e = e') (by simp)
  | .function params result, .function params' result' =>
    match decEqAll params params', result.decEq result' with
    | isTrue h, isTrue h' => isTrue (by rw [h, h'])
    | isFalse h, _ => isFalse fun eq => h (ArgType.function.inj eq).1
    | _, isFalse h => isFalse fun eq => h (ArgType.function.inj eq).2
  | .scalar _, .array _ => isFalse nofun
  | .scalar _, .function _ _ => isFalse nofun
  | .array _, .scalar _ => isFalse nofun
  | .array _, .function _ _ => isFalse nofun
  | .function _ _, .scalar _ => isFalse nofun
  | .function _ _, .array _ => isFalse nofun

def decEqAll : (as bs : List ArgType) → Decidable (as = bs)
  | [], [] => isTrue rfl
  | [], _ :: _ => isFalse nofun
  | _ :: _, [] => isFalse nofun
  | a :: as, b :: bs =>
    match a.decEq b, decEqAll as bs with
    | isTrue h, isTrue h' => isTrue (by rw [h, h'])
    | isFalse h, _ => isFalse fun eq => h (List.cons.inj eq).1
    | _, isFalse h => isFalse fun eq => h (List.cons.inj eq).2

end

instance : DecidableEq ArgType := ArgType.decEq

structure Signature where
  params : List ArgType
  result : ArgType
deriving DecidableEq

namespace ArgType

def isScalar : ArgType → Bool
  | .scalar _ => true
  | _ => false

def ofSignature (s : Signature) : ArgType := .function s.params s.result

end ArgType

def elemText : Elem → String
  | .int => "int"
  | .double => "double"
  | .bool => "bool"

/-- A signature from the texts of its types. A single parameter needs no brackets. -/
def arrow (params : List String) (result : String) : String :=
  match params with
  | [param] => param ++ " -> " ++ result
  | params => "[" ++ " ".intercalate params ++ "] -> " ++ result

mutual

def ArgType.text : ArgType → String
  | .scalar e => elemText e
  | .array e => "(" ++ elemText e ++ ")"
  | .function params result => "fn" ++ arrow (textAll params) result.text

def textAll : List ArgType → List String
  | [] => []
  | t :: rest => t.text :: textAll rest

end

def Signature.text (s : Signature) : String := arrow (textAll s.params) s.result.text

end Tacit.Builtin
