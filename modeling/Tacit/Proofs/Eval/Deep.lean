import Tacit.Eval.Fold
import Tacit.Proofs.Store.Tree

/-!
Evaluation of deep values: the rules of the fold on trees alone, against an environment of trees.
There are no columns and no slots here, so what is evaluated depends on deep values only, by
construction. That the evaluation of words does the same is shown in
`Tacit.Proofs.Eval.Agreement`.
-/

namespace Tacit

/-- An error of evaluation without the words that it is about. -/
inductive EvalError.Kind where
  | nameNotFound
  | nameAlreadyTaken
  | cannotAssign
  | noMatchingOverload
  | placeholderOutOfRange (number : Nat)
  | placeholderOntoPlaceholder
  /-- One word that is no value by itself. -/
  | noValue
  /-- Two words that no rule folds. -/
  | cannotFold
  | operation (e : Builtin.OperationError)
deriving DecidableEq, Repr

def EvalError.kind : EvalError → EvalError.Kind
  | .nameNotFound _ => .nameNotFound
  | .nameAlreadyTaken _ => .nameAlreadyTaken
  | .cannotAssign _ _ => .cannotAssign
  | .noMatchingOverload _ _ => .noMatchingOverload
  | .placeholderOutOfRange placeholder _ => .placeholderOutOfRange placeholder.index
  | .placeholderOntoPlaceholder _ _ => .placeholderOntoPlaceholder
  | .cannotFold _ none => .noValue
  | .cannotFold _ (some _) => .cannotFold
  | .operation e => .operation e

/-! ### Trees as words -/

namespace Tree

/-- The items of a tuple; any other tree is its own single component. -/
def components : Tree → List Tree
  | .tuple _ items => items
  | t => [t]

/-- What a call sees of a tree. -/
def argument : Tree → Builtin.Argument
  | .datum d => .datum d
  | .name text => .function text
  | _ => .other

def isConnected : Tree → Bool
  | .tuple (some _) _ => true
  | _ => false

def isAssignment : Tree → Bool
  | .assignment => true
  | _ => false

/-- Cuts items into stages, a connected tuple belonging to the stage before it. -/
def stages : List Tree → List (List Tree)
  | [] => []
  | t :: rest =>
    match stages rest, rest.head?.elim false isConnected with
    | stage :: later, true => (t :: stage) :: later
    | later, _ => [t] :: later

/-- The items of a tuple filled with components, or the number of the first placeholder without
one. -/
def substitute (components : List Tree) : List Tree → Except Nat (List Tree)
  | [] => .ok []
  | .placeholder 0 :: rest => return components ++ (← substitute components rest)
  | .placeholder (n + 1) :: rest =>
    match components[n]? with
    | some t => return t :: (← substitute components rest)
    | none => .error (n + 1)
  | t :: rest => return t :: (← substitute components rest)

/-- Whether an item picks the component at a position. -/
def picks (i : Nat) : Tree → Bool
  | .placeholder n => n == 0 || n == i + 1
  | _ => false

/-- The components that complete a filled tuple up to an arity. -/
def completion (arity : Nat) (components items filled : List Tree) : List Tree :=
  ((components.zipIdx.filter fun entry => !items.any (picks entry.2)).map Prod.fst).take
    (arity - filled.length)

/-- The arity that a tuple is completed to. -/
def arity (connectedName : Option String) : Nat := (connectedName.map Builtin.maxArity).getD 0

end Tree

/-! ### Environments -/

/-- What evaluation knows besides the trees it folds. -/
structure Scene where
  env : String → Option Tree
  /-- The next fold has to bind a name. -/
  pending : Bool

namespace Scene

def isTaken (c : Scene) (name : String) : Bool := Builtin.isBuiltin name || (c.env name).isSome

def bind (c : Scene) (name : String) (t : Tree) : Scene :=
  { c with env := fun other => if other = name then some t else c.env other }

/-- A bound name is replaced by its tree, every other tree is kept. -/
def substitute (c : Scene) : Tree → Tree
  | .name text => (c.env text).getD (.name text)
  | t => t

/-- The arguments that a tree hands to a builtin. -/
def arguments (c : Scene) (t : Tree) : List Builtin.Argument :=
  t.components.map fun component => (c.substitute component).argument

/-- Why an evaluation of trees gives no tree. -/
inductive Failure where
  | error (kind : EvalError.Kind) (trees : List Tree)
  | depthExceeded

end Scene

/-- Evaluation of trees changes a scene and gives a tree or a failure. -/
abbrev Deep (α : Type) := EStateM Scene.Failure Scene α

namespace Deep

def fail {α : Type} (kind : EvalError.Kind) (trees : List Tree) : Deep α :=
  throw (.error kind trees)

/-! ### Names and assignments -/

def bound? : Tree → Deep (Option Tree)
  | .name text => return (← get).env text
  | _ => return none

def resolve (t : Tree) : Deep Tree :=
  match t with
  | .name text => do
    match (← get).env text with
    | some v => return v
    | none => fail .nameNotFound [t]
  | .placeholder _ => fail .noValue [t]
  | .assignment => fail .noValue [t]
  | _ => return t

def setPending (p : Bool) : Deep Unit := modify fun c => { c with pending := p }

def takeAssignment : Deep Bool := modifyGet fun c => (c.pending, { c with pending := false })

def assign (target value : Tree) : Deep Tree :=
  match target with
  | .name text => do
    if (← get).isTaken text then fail .nameAlreadyTaken [target]
    else do
      let v ← resolve value
      modify (·.bind text v)
      return target
  | _ => fail .cannotAssign [target, value]

/-! ### Calls, tuples and placeholders -/

def callBuiltin (name : String) (argument : Tree) : Deep Tree := do
  if Builtin.isBuiltin name then
    match Builtin.call name ((← get).arguments argument) with
    | some (.ok d) => return .datum d
    | some (.error e) => fail (.operation e) []
    | none => fail .noMatchingOverload [.name name, argument]
  else fail .nameNotFound [.name name]

def fillTuple (connectedName : Option String) (items : List Tree) (argument : Tree) : Deep Tree :=
  match Tree.substitute argument.components items with
  | .error n => fail (.placeholderOutOfRange n) [.placeholder n, argument]
  | .ok filled =>
    let extra := Tree.completion (Tree.arity connectedName) argument.components items filled
    return .tuple none (filled ++ extra)

def foldPlaceholder (number : Nat) (argument : Tree) : Deep Tree :=
  let outOfRange := fail (.placeholderOutOfRange number) [.placeholder number, argument]
  match argument with
  | .placeholder _ => fail .placeholderOntoPlaceholder [.placeholder number, argument]
  | .tuple _ items =>
    match (componentIndex number).bind (items[·]?) with
    | some t => return t
    | none => outOfRange
  | _ => if number = 1 then return argument else outOfRange

/-! ### The fold -/

abbrev Folding := Tree → Tree → Deep Tree

def foldOnto (fold : Folding) (seed : Tree) (items : List Tree) : Deep Tree :=
  items.foldrM fold seed

def foldOntoBlock (fold : Folding) (left : Tree) (body : List Tree) : Deep Tree :=
  match body.getLast? with
  | some last => foldOnto fold last (left :: body.dropLast)
  | none => return left

def fanOut (fold : Folding) (items : List Tree) (argument : Tree) : Deep Tree := do
  let results ← (Tree.stages items).mapM (foldOnto fold argument)
  return .tuple none results

/-- The rules for a left tree that is no bound name, onto one that is no name. -/
def foldValues (fold : Folding) (left right : Tree) : Deep Tree :=
  match left, right with
  | _, .block body => foldOntoBlock fold left body
  | .name name, _ => callBuiltin name right
  | .tuple connectedName items, _ => fillTuple connectedName items right
  | .placeholder n, _ => foldPlaceholder n right
  | .executor items, _ => fanOut fold items right
  | .block body, _ => foldOnto fold right body
  | _, _ => fail .cannotFold [left, right]

/-- One step of folding, with `fold` for the folds inside it. -/
def foldStep (fold : Folding) (left right : Tree) : Deep Tree := do
  if ← takeAssignment then assign left right
  else if left.isAssignment then
    setPending true
    return right
  else
    match right with
    | .name _ => fold left (← resolve right)
    | _ =>
      match ← bound? left with
      | some value => fold value right
      | none => foldValues fold left right

def fold : (depth : Nat) → Folding
  | 0 => fun _ _ => throw .depthExceeded
  | depth + 1 => foldStep (fold depth)

def reduce (depth : Nat) (items : List Tree) : Deep (Option Tree) :=
  match items.getLast? with
  | some last => return some (← foldOnto (fold depth) last items.dropLast)
  | none => return none

def executeSentence (depth : Nat) (result : Option Tree) (items : List Tree) :
    Deep (Option Tree) := do
  setPending false
  return (← reduce depth items).or result

def execute (depth : Nat) (sentences : List (List Tree)) : Deep (Option Tree) := do
  let result ← sentences.foldlM (executeSentence depth) none
  setPending false
  match result with
  | some t => return some (← resolve t)
  | none => return none

end Deep

end Tacit
