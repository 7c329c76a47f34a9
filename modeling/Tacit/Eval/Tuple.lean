import Tacit.Eval.Basic

/-!
Placeholders: a tuple is filled from an argument, and a placeholder alone picks a component of
one.
-/

namespace Tacit

/-- A tuple that is being filled with the components of an argument. -/
structure Filling where
  filled : List Word
  /-- For each component, whether a placeholder has taken it. -/
  taken : List Bool

namespace Filling

def start (components : List Word) : Filling := ⟨[], components.map fun _ => false⟩

/-- Fills in what the next word of the tuple stands for: the bare placeholder stands for all
components, a numbered one for the one it counts to, and any other word for itself. A placeholder
without a component is the error. -/
def step (components : List Word) (f : Filling) : Word → Except Word Filling
  | .placeholder 0 => .ok ⟨f.filled ++ components, f.taken.map fun _ => true⟩
  | .placeholder (n + 1) =>
    match components[n]? with
    | some w => .ok ⟨f.filled ++ [w], f.taken.set n true⟩
    | none => .error (.placeholder (n + 1))
  | w => .ok { f with filled := f.filled ++ [w] }

def run (components words : List Word) : Except Word Filling :=
  words.foldlM (step components) (start components)

def untaken (components : List Word) (f : Filling) : List Word :=
  ((components.zip f.taken).filter fun entry => !entry.2).map Prod.fst

/-- The filled words, completed up to an arity with components that are not taken. -/
def complete (arity : Nat) (components : List Word) (f : Filling) : List Word :=
  f.filled ++ (f.untaken components).take (arity - f.filled.length)

end Filling

namespace Eval

def arity (t : Tuple) : Eval Nat :=
  match t.connectedName with
  | some slot => do return Builtin.maxArity (← ask (·.name (.name slot)))
  | none => return 0

/-- Fills a tuple with the components of an argument. A connected tuple is completed with untaken
components. The result is a new tuple that is connected to nothing. -/
def fillTuple (tuple argument : Word) : Eval Word := do
  let t ← ask (·.tuple tuple)
  let components ← ask (·.components argument)
  match Filling.run components t.words with
  | .error placeholder => fail (.placeholderOutOfRange placeholder argument)
  | .ok f => make (.tuple (.unconnected (f.complete (← arity t) components)))

/-- What a placeholder alone picks from an argument. A word that is no tuple has itself as its
first component; the bare placeholder picks nothing. -/
def foldPlaceholder (placeholder argument : Word) : Eval Word :=
  let outOfRange := fail (.placeholderOutOfRange placeholder argument)
  match argument with
  | .placeholder _ => fail (.placeholderOntoPlaceholder placeholder argument)
  | .tuple _ => do
    let t ← ask (·.tuple argument)
    match (componentIndex placeholder.index).bind (t.words[·]?) with
    | some w => return w
    | none => outOfRange
  | _ => if placeholder.index = 1 then return argument else outOfRange

end Eval

end Tacit
