import Tacit.Eval.Tuple

/-!
The fold: a sentence is reduced from its end, each word being folded onto what has been reached
so far. Folding a word may fold further words, those of a block or of an executor's stages; the
nesting of folds is bounded by a depth, and a fold that would go deeper fails as such.

* `stages_flatten`: the stages of an executor are its words, cut but not changed.
-/

namespace Tacit

def Store.isConnected (s : Store) (w : Word) : Except Fault Bool :=
  match w with
  | .tuple _ => return (← s.tuple w).isConnected
  | _ => return false

/-- Cuts words into stages: each connected tuple belongs to the stage before it, and any other
word begins a stage. -/
def Store.stages (s : Store) : List Word → Except Fault (List (List Word))
  | [] => .ok []
  | w :: rest => do
    let connected ← rest.head?.elim (.ok false) s.isConnected
    match ← s.stages rest, connected with
    | stage :: later, true => return (w :: stage) :: later
    | later, _ => return [w] :: later

/-- Cutting words into stages loses no word and moves none. -/
theorem Store.stages_flatten {s : Store} {words : List Word} {stages : List (List Word)}
    (h : s.stages words = .ok stages) : stages.flatten = words := by
  fun_induction Store.stages s words generalizing stages with
  | case1 =>
    cases h
    rfl
  | case2 w rest ih =>
    cases hc : rest.head?.elim (Except.ok false) s.isConnected with
    | error e =>
      rw [hc] at h
      cases h
    | ok connected =>
      cases hs : s.stages rest with
      | error e =>
        rw [hc, hs] at h
        cases h
      | ok later =>
        rw [hc, hs] at h
        have flat := ih hs
        cases later with
        | nil =>
          cases h
          simpa using flat
        | cons stage later =>
          cases connected <;> cases h <;> simpa using flat

namespace Eval

abbrev Folding := Word → Word → Eval Word

def foldOnto (fold : Folding) (seed : Word) (words : List Word) : Eval Word :=
  words.foldrM fold seed

/-- The words of a block on the right are reduced with the left word in front; an empty block
gives way to the left word. -/
def foldOntoBlock (fold : Folding) (left block : Word) : Eval Word := do
  let body ← ask (·.block block)
  match body.getLast? with
  | some last => foldOnto fold last (left :: body.dropLast)
  | none => return left

/-- Each stage of an executor is folded onto the argument; the results make a tuple. -/
def fanOut (fold : Folding) (executor argument : Word) : Eval Word := do
  let words ← ask (·.executor executor)
  let stages ← ask (·.stages words)
  let results ← stages.mapM (foldOnto fold argument)
  make (.tuple (.unconnected results))

/-- The rules for a left word that is no bound name, onto a word that is no name. -/
def foldValues (fold : Folding) (left right : Word) : Eval Word :=
  match left, right with
  | _, .block _ => foldOntoBlock fold left right
  | .name _, _ => callBuiltin left right
  | .tuple _, _ => fillTuple left right
  | .placeholder _, _ => foldPlaceholder left right
  | .executor _, _ => fanOut fold left right
  | .block _, _ => do foldOnto fold right (← ask (·.block left))
  | _, _ => fail (.cannotFold left (some right))

/-- One step of folding `left` onto `right`, with `fold` for the folds inside it. The first rule
that applies is taken. -/
def foldStep (fold : Folding) (left right : Word) : Eval Word := do
  if ← takeAssignment then assign left right
  else if left = .assignment then
    armAssignment
    return right
  else
    match right with
    | .name _ => fold left (← resolve right)
    | _ =>
      match ← bound? left with
      | some value => fold value right
      | none => foldValues fold left right

/-- Folds `left` onto `right`, with fewer than `depth` folds inside each other. -/
def fold : (depth : Nat) → Folding
  | 0 => fun _ _ => throw .depthExceeded
  | depth + 1 => foldStep (fold depth)

/-- Reduces a sentence from its end: its last word is the seed, the others are folded onto it.
The empty sentence has no result. -/
def reduce (depth : Nat) (words : Sentence) : Eval (Option Word) :=
  match words.getLast? with
  | some last => return some (← foldOnto (fold depth) last words.dropLast)
  | none => return none

/-- Reduces a sentence that follows others, of which the last result was `result`. -/
def executeSentence (depth : Nat) (result : Option Word) (words : Sentence) :
    Eval (Option Word) := do
  resetAssignment
  return (← reduce depth words).or result

/-- Executes sentences in order. The result is the value of the last result. -/
def execute (depth : Nat) (sentences : List Sentence) : Eval (Option Word) := do
  let result ← sentences.foldlM (executeSentence depth) none
  resetAssignment
  match result with
  | some w => return some (← resolve w)
  | none => return none

end Eval

end Tacit
