import Tacit.Builtin.Call
import Tacit.Eval.Error

/-!
Evaluation changes a store and gives a word or a failure; what it did to the store before a
failure stays. This module holds the steps that fold no further words: names, assignments and
calls of builtins.
-/

namespace Tacit

abbrev Eval (α : Type) := EStateM Failure Store α

namespace Eval

def fail {α : Type} (e : EvalError) : Eval α := throw (.error e)

def ask {α : Type} (f : Store → Except Fault α) : Eval α := fun s =>
  match f s with
  | .ok a => .ok a s
  | .error e => .error (.fault e) s

def make (v : Value) : Eval Word := fun s =>
  match s.create v with
  | (w, s') => .ok w s'

/-! ### Names -/

/-- The word that a name is bound to; none for other words and for names that are not bound. -/
def bound? (w : Word) : Eval (Option Word) :=
  match w with
  | .name _ => ask fun s => return s.lookup (← s.name w)
  | _ => return none

/-- The value that a word stands for: the word that a name is bound to, and any other word
itself. The markers are no values. -/
def resolve (w : Word) : Eval Word :=
  match w with
  | .name _ => do
    match ← bound? w with
    | some v => return v
    | none => fail (.nameNotFound w)
  | .placeholder _ | .assignment => fail (.cannotFold w none)
  | _ => return w

/-! ### Assignment -/

/-- From now on the next fold has to bind a name. -/
def armAssignment : Eval Unit := modify fun s => { s with pending := true }

def resetAssignment : Eval Unit := modify fun s => { s with pending := false }

def takeAssignment : Eval Bool := modifyGet fun s => (s.pending, { s with pending := false })

end Eval

def Store.isTaken (s : Store) (name : String) : Bool := Builtin.isBuiltin name || s.isBound name

namespace Eval

/-- Binds a free name to the value of a word. The result is the name. -/
def assign (target value : Word) : Eval Word :=
  match target with
  | .name _ => do
    let name ← ask (·.name target)
    if (← get).isTaken name then fail (.nameAlreadyTaken target)
    else do
      let v ← resolve value
      modify (·.bind name v)
      return target
  | _ => fail (.cannotAssign target value)

end Eval

/-! ### Builtins -/

def Store.argument (s : Store) (w : Word) : Except Fault Builtin.Argument :=
  match w with
  | .scalar e i => return .datum (.scalar e (← s.scalar e i))
  | .array e i => return .datum (.array e (← s.array e i))
  | .name _ => return .function (← s.name w)
  | _ => return .other

def Store.substitute (s : Store) (w : Word) : Except Fault Word :=
  match w with
  | .name _ => return (s.lookup (← s.name w)).getD w
  | _ => return w

/-- The arguments that a word hands to a builtin: its components, bound names replaced. -/
def Store.arguments (s : Store) (w : Word) : Except Fault (List Builtin.Argument) := do
  (← s.components w).mapM fun component => do s.argument (← s.substitute component)

namespace Eval

/-- Calls the builtin that a name stands for. -/
def callBuiltin (function argument : Word) : Eval Word := do
  let name ← ask (·.name function)
  if Builtin.isBuiltin name then
    let args ← ask (·.arguments argument)
    match Builtin.call name args with
    | some (.ok d) => make (.datum d)
    | some (.error e) => fail (.operation e)
    | none => fail (.noMatchingOverload function argument)
  else fail (.nameNotFound function)

end Eval

end Tacit
