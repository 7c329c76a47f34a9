import Tacit.Proofs.Eval.Congruence
import Tacit.Proofs.Eval.Nesting

/-!
Evaluations of deep values that come to an end. Each fold does where the trees have a depth of
nesting, by three inductions inside each other: on how deep blocks nest in both words, on the left
word with its names replaced, and on how deep blocks nest in the right one. The words of a block on
the right nest less deep than the block, and so does their result, which is what the left word is
folded onto next.

* `Halts.bind`, `halts_foldOnto`, `halts_mapM`: what halts part by part halts.
* `halts_fold`: every fold of trees that nest halts, with a tree that nests no deeper.
* `halts_reduce`: so does the reduction of a sentence.
-/

namespace Tacit

namespace Deep

open Tacit.Tree (Nests)

/-! ### Evaluations that halt -/

/-- An evaluation has come to an end: to a value that satisfies `P`, with the scene that it was
started in, or to an error. -/
inductive Halted {α : Type} (P : α → Prop) (c : Scene) :
    EStateM.Result Scene.Failure Scene α → Prop where
  | ok {a : α} : P a → Halted P c (.ok a c)
  | error {kind : EvalError.Kind} {trees : List Tree} {c' : Scene} :
      Halted P c (.error (.error kind trees) c')

/-- The evaluation, which folds nothing, comes to an end in every scene. -/
def Settles {α : Type} (m : Deep α) (P : α → Prop) : Prop := ∀ c, Halted P c (m c)

/-- With enough depth the evaluation comes to an end, which is the same for every greater depth. -/
def Halts {α : Type} (m : Nat → Deep α) (P : α → Prop) (c : Scene) : Prop :=
  ∃ r, Halted P c r ∧ ∃ enough, ∀ depth, enough ≤ depth → m depth c = r

section Combinators

variable {α β : Type} {m m' : Nat → Deep α} {f : Nat → α → Deep β} {P Q : α → Prop} {R : β → Prop}
  {c : Scene}

theorem settles_pure {a : α} (value : P a) : Settles (Pure.pure a) P := fun _ => .ok value

theorem settles_fail (kind : EvalError.Kind) (trees : List Tree) :
    Settles (Deep.fail kind trees) P := fun _ => .error

/-- What folds nothing comes to an end at any depth. -/
theorem Settles.halts {m : Deep α} (h : Settles m P) (c : Scene) : Halts (fun _ => m) P c :=
  ⟨m c, h c, 0, fun _ _ => rfl⟩

/-- A sequence comes to an end, with a depth that is enough for both parts. -/
theorem Halts.bind (h : Halts m P c) (next : ∀ a, P a → Halts (fun depth => f depth a) R c) :
    Halts (fun depth => m depth >>= f depth) R c := by
  obtain ⟨r, halted, enough, eq⟩ := h
  cases halted with
  | @ok a value =>
    obtain ⟨r', halted', enough', eq'⟩ := next a value
    refine ⟨r', halted', max enough enough', ?_⟩
    intro depth le
    simp only [Bind.bind, EStateM.bind, eq depth (by omega), eq' depth (by omega)]
  | @error kind trees c' =>
    refine ⟨.error (.error kind trees) c', .error, enough, ?_⟩
    intro depth le
    simp only [Bind.bind, EStateM.bind, eq depth le]

/-- What one more level of depth does is done with enough depth. -/
theorem Halts.of_succ (h : Halts m' P c) (step : ∀ depth, m (depth + 1) c = m' depth c) :
    Halts m P c := by
  obtain ⟨r, halted, enough, eq⟩ := h
  refine ⟨r, halted, enough + 1, ?_⟩
  intro depth le
  obtain ⟨depth, rfl⟩ : ∃ d, depth = d + 1 := ⟨depth - 1, by omega⟩
  rw [step]
  exact eq depth (by omega)

end Combinators

section Lists

variable {folds : Nat → Folding} {P Q : Tree → Prop} {c : Scene}

/-- Trees that are folded one after the other come to an end, if each does onto any value of the
sort. -/
theorem halts_foldOnto {seed : Tree} {items : List Tree} (value : P seed)
    (each : ∀ t ∈ items, ∀ u, P u → Halts (fun depth => folds depth t u) P c) :
    Halts (fun depth => foldOnto (folds depth) seed items) P c := by
  induction items with
  | nil => exact (settles_pure value).halts c
  | cons t rest ih =>
    obtain ⟨first, later⟩ := List.forall_mem_cons.mp each
    simp only [foldOnto, List.foldrM_cons]
    exact (ih later).bind first

/-- Stages come to an end, if each of them does. -/
theorem halts_mapM {stages : List (List Tree)} {argument : Tree}
    (each : ∀ stage ∈ stages, Halts (fun depth => foldOnto (folds depth) argument stage) P c) :
    Halts (fun depth => stages.mapM (foldOnto (folds depth) argument)) (fun ts => ∀ t ∈ ts, P t)
      c := by
  induction stages with
  | nil => exact (settles_pure fun _ mem => nomatch mem).halts c
  | cons stage later ih =>
    obtain ⟨first, others⟩ := List.forall_mem_cons.mp each
    simp only [List.mapM_cons]
    apply first.bind
    intro result value
    apply (ih others).bind
    intro results values
    exact (settles_pure (List.forall_mem_cons.mpr ⟨value, values⟩)).halts c

end Lists

/-! ### The rules of the fold -/

def idle (env : String → Option Tree) : Scene := ⟨env, false⟩

section Rules

variable {env : String → Option Tree} {P : Tree → Prop} {t u v : Tree} {text : String}

/-- A name on the right is resolved first. -/
theorem fold_onto_name (unmarked : t.isAssignment = false) (depth : Nat) :
    fold (depth + 1) t (.name text) (idle env) =
      (resolve (.name text) >>= fold depth t) (idle env) := by
  rw [fold, foldStep, unmarked]
  rfl

/-- Folding onto a bound name is folding onto its value. -/
theorem fold_onto_bound (unmarked : t.isAssignment = false) (found : env text = some v)
    (depth : Nat) : fold (depth + 1) t (.name text) (idle env) = fold depth t v (idle env) := by
  have resolved : resolve (.name text) (idle env) = .ok v (idle env) := by
    simp only [resolve, Eval.get_bind, idle, found]
    rfl
  rw [fold_onto_name unmarked]
  exact Eval.bind_of_ok resolved

/-- Folding onto a name that is not bound fails. -/
theorem fold_onto_unbound (unmarked : t.isAssignment = false) (free : env text = none)
    (depth : Nat) : fold (depth + 1) t (.name text) (idle env) =
      (fail .nameNotFound [.name text] : Deep Tree) (idle env) := by
  have unresolved : resolve (.name text) (idle env) =
      (fail .nameNotFound [.name text] : Deep Tree) (idle env) := by
    simp only [resolve, Eval.get_bind, idle, free]
  rw [fold_onto_name unmarked]
  exact Eval.bind_of_error unresolved

/-- A name on the right is resolved first. -/
theorem halts_onto_name (unmarked : t.isAssignment = false) (found : env text = some v)
    (h : Halts (fun depth => fold depth t v) P (idle env)) :
    Halts (fun depth => fold depth t (.name text)) P (idle env) :=
  h.of_succ (fold_onto_bound unmarked found)

theorem halts_onto_unbound (unmarked : t.isAssignment = false) (free : env text = none) :
    Halts (fun depth => fold depth t (.name text)) P (idle env) :=
  ((settles_fail .nameNotFound [.name text]).halts _).of_succ (fold_onto_unbound unmarked free)

variable (value : ∀ text, u ≠ .name text)

include value

/-- Onto a value, a bound name on the left is replaced, and else the rule for its kind applies. -/
theorem fold_onto_value (unmarked : t.isAssignment = false) (depth : Nat) :
    fold (depth + 1) t u (idle env) = (do
      match ← bound? t with
      | some v => fold depth v u
      | none => foldValues (fold depth) t u : Deep Tree) (idle env) := by
  have taken : takeAssignment (idle env) = .ok false (idle env) := rfl
  rw [fold]
  unfold foldStep
  rw [Eval.bind_of_ok taken, unmarked]
  cases u with
  | name text => exact absurd rfl (value text)
  | _ => rfl

/-- A bound name on the left is replaced by its value. -/
theorem fold_of_bound (found : env text = some v) (depth : Nat) :
    fold (depth + 1) (.name text) u (idle env) = fold depth v u (idle env) := by
  have bound : bound? (.name text) (idle env) = .ok (some v) (idle env) := by
    rw [← found]
    rfl
  rw [fold_onto_value value rfl]
  exact Eval.bind_of_ok bound

theorem fold_of_unbound (unmarked : t.isAssignment = false)
    (unbound : bound? t (idle env) = .ok none (idle env)) (depth : Nat) :
    fold (depth + 1) t u (idle env) = foldValues (fold depth) t u (idle env) := by
  rw [fold_onto_value value unmarked]
  exact Eval.bind_of_ok unbound

/-- A bound name on the left is resolved next. -/
theorem halts_of_bound (found : env text = some v)
    (h : Halts (fun depth => fold depth v u) P (idle env)) :
    Halts (fun depth => fold depth (.name text) u) P (idle env) :=
  h.of_succ (fold_of_bound value found)

/-- A fold comes to an end if the rule for its kind does. -/
theorem halts_of_foldValues (unmarked : t.isAssignment = false)
    (unbound : bound? t (idle env) = .ok none (idle env))
    (h : Halts (fun depth => foldValues (fold depth) t u) P (idle env)) :
    Halts (fun depth => fold depth t u) P (idle env) :=
  h.of_succ (fold_of_unbound value unmarked unbound)

end Rules

/-! ### Rules that fold no further trees -/

section Parts

variable {env : String → Option Tree} {n : Nat} {u : Tree}

/-- A call gives data, which nests nothing. -/
theorem settles_callBuiltin (name : String) (u : Tree) :
    Settles (callBuiltin name u) (Nests env n) := by
  unfold callBuiltin
  split
  · intro c
    rw [Eval.get_bind]
    cases Builtin.call name (c.arguments u) with
    | none => exact .error
    | some result =>
      cases result with
      | ok d => exact .ok .datum
      | error e => exact .error
  · exact settles_fail _ _

/-- Filling a tuple nests no deeper than the tuple and its argument. -/
theorem settles_fillTuple (connectedName : Option String) {items : List Tree}
    (h : ∀ t ∈ items, Nests env n t) (hu : Nests env n u) :
    Settles (fillTuple connectedName items u) (Nests env n) := by
  unfold fillTuple
  split
  · exact settles_fail _ _
  · next filled eq =>
    apply settles_pure
    apply Nests.tuple
    intro t mem
    rcases List.mem_append.mp mem with mem | mem
    · rcases Tree.mem_or_mem_of_mem_substitute eq mem with mem | mem
      · exact hu.of_mem_components t mem
      · exact h t mem
    · exact hu.of_mem_components t (Tree.mem_of_mem_completion mem)

theorem settles_foldPlaceholder (number : Nat) (hu : Nests env n u) :
    Settles (foldPlaceholder number u) (Nests env n) := by
  cases id hu with
  | placeholder => exact settles_fail _ _
  | tuple each =>
    simp only [foldPlaceholder]
    split
    · next t picked =>
      obtain ⟨i, -, found⟩ := Option.bind_eq_some_iff.mp picked
      exact settles_pure (each t (List.mem_of_getElem? found))
    · exact settles_fail _ _
  | datum | free | bound | executor | block =>
    simp only [foldPlaceholder]
    split
    · exact settles_pure hu
    · exact settles_fail _ _

end Parts

/-! ### The fold -/

section Fold

variable {env : String → Option Tree} {P : Tree → Prop} {n : Nat} {t : Tree}

/-- Names on the right lead to what is no name, since the tree has a depth. -/
theorem halts_of_not_name (unmarked : t.isAssignment = false) {m : Nat}
    (h : ∀ u, (∀ text, u ≠ .name text) → Nests env m u →
      Halts (fun depth => fold depth t u) P (idle env)) {u : Tree} (hu : Nests env m u) :
    Halts (fun depth => fold depth t u) P (idle env) := by
  induction hu with
  | free free => exact halts_onto_unbound unmarked free
  | bound found _ ih => exact halts_onto_name unmarked found (ih h)
  | datum => exact h _ (by rintro _ ⟨⟩) .datum
  | tuple each => exact h _ (by rintro _ ⟨⟩) (.tuple each)
  | executor each => exact h _ (by rintro _ ⟨⟩) (.executor each)
  | block each => exact h _ (by rintro _ ⟨⟩) (.block each)
  | placeholder => exact h _ (by rintro _ ⟨⟩) .placeholder

/-- Trees that nest at most `k` deep fold onto each other, and come to no more than that. -/
def HaltsWithin (env : String → Option Tree) (k : Nat) : Prop :=
  ∀ t u, Nests env k t → Nests env k u →
    Halts (fun depth => fold depth t u) (Nests env k) (idle env)

/-- A tree that is folded onto a block is folded onto the result of its body, which nests less
deep. So a tree halts onto everything if it does onto all that is no block. -/
theorem halts_of_not_block (ht : Nests env n t)
    (unbound : bound? t (idle env) = .ok none (idle env))
    (values : ∀ u, (∀ body, u ≠ .block body) → Nests env n u →
      Halts (fun depth => foldValues (fold depth) t u) (Nests env n) (idle env))
    (inner : ∀ k < n, HaltsWithin env k) {m : Nat} (le : m ≤ n) {u : Tree}
    (hu : Nests env m u) : Halts (fun depth => fold depth t u) (Nests env n) (idle env) := by
  have unmarked := ht.isAssignment_eq
  induction m using Nat.strong_induction_on generalizing u with
  | _ m ih =>
    apply halts_of_not_name unmarked ?_ hu
    intro u value hu
    apply halts_of_foldValues value unmarked unbound
    cases id hu with
    | @block k body each =>
      simp only [foldValues, foldOntoBlock]
      cases last : body.getLast? with
      | none => exact (settles_pure ht).halts _
      | some seed =>
        simp only [foldOnto, List.foldrM_cons]
        have run : Halts (fun depth => foldOnto (fold depth) seed body.dropLast) (Nests env k)
            (idle env) := by
          apply halts_foldOnto (each seed (List.mem_of_getLast? last))
          intro b mem v hv
          exact inner k (by omega) b v (each b (List.mem_of_mem_dropLast mem)) hv
        apply run.bind
        intro v hv
        exact ih k (by omega) (by omega) hv
    | free | bound => exact absurd rfl (value _)
    | datum | tuple | executor | placeholder => exact values _ (by rintro _ ⟨⟩) (hu.mono le)

/-- The rules for the kinds of trees, for a right one that is no block. -/
theorem foldValues_of_not_block {u : Tree} (value : ∀ body, u ≠ .block body) (fold : Folding) :
    foldValues fold t u = (match t with
      | .name name => callBuiltin name u
      | .tuple connectedName items => fillTuple connectedName items u
      | .placeholder number => foldPlaceholder number u
      | .executor items => fanOut fold items u
      | .block body => foldOnto fold u body
      | t => fail .cannotFold [t, u]) := by
  cases u with
  | block body => exact absurd rfl (value body)
  | _ => cases t <;> rfl

/-- An executor comes to an end, if each of its parts does. -/
theorem halts_fanOut {items : List Tree} {u : Tree} (hu : Nests env n u)
    (each : ∀ t ∈ items, ∀ u, Nests env n u →
      Halts (fun depth => fold depth t u) (Nests env n) (idle env)) :
    Halts (fun depth => fanOut (fold depth) items u) (Nests env n) (idle env) := by
  have stages : ∀ stage ∈ Tree.stages items,
      Halts (fun depth => foldOnto (fold depth) u stage) (Nests env n) (idle env) := by
    intro stage mem
    apply halts_foldOnto hu
    intro t inside
    exact each t (Tree.mem_of_mem_stages mem inside)
  apply (halts_mapM stages).bind
  intro results values
  exact (settles_pure (.tuple values)).halts _

/-- The parts of the left tree are folded onto whatever the others have come to, which may be any
tree of the depth. So the induction is on the left tree alone, names replaced. -/
theorem halts_of_inner (inner : ∀ k < n, HaltsWithin env k) {m : Nat} (le : m ≤ n)
    (ht : Nests env m t) {u : Tree} (hu : Nests env n u) :
    Halts (fun depth => fold depth t u) (Nests env n) (idle env) := by
  have nests := ht.mono le
  induction ht generalizing u with
  | bound found leads ih =>
    apply halts_of_not_name rfl ?_ hu
    intro u value hu
    exact halts_of_bound value found (ih le hu (leads.mono le))
  | datum =>
    apply halts_of_not_block nests rfl ?_ inner (Nat.le_refl n) hu
    intro u value hu
    simp only [foldValues_of_not_block value]
    exact (settles_fail _ _).halts _
  | free free =>
    apply halts_of_not_block nests ?_ ?_ inner (Nat.le_refl n) hu
    · rw [← free]
      rfl
    · intro u value hu
      simp only [foldValues_of_not_block value]
      exact (settles_callBuiltin _ u).halts _
  | tuple each =>
    apply halts_of_not_block nests rfl ?_ inner (Nat.le_refl n) hu
    intro u value hu
    simp only [foldValues_of_not_block value]
    exact (settles_fillTuple _ (fun t mem => (each t mem).mono le) hu).halts _
  | placeholder =>
    apply halts_of_not_block nests rfl ?_ inner (Nat.le_refl n) hu
    intro u value hu
    simp only [foldValues_of_not_block value]
    exact (settles_foldPlaceholder _ hu).halts _
  | executor each ih =>
    apply halts_of_not_block nests rfl ?_ inner (Nat.le_refl n) hu
    intro u value hu
    simp only [foldValues_of_not_block value]
    apply halts_fanOut hu
    intro t mem u hu
    exact ih t mem le hu ((each t mem).mono le)
  | block each ih =>
    apply halts_of_not_block nests rfl ?_ inner (Nat.le_refl n) hu
    intro u value hu
    simp only [foldValues_of_not_block value]
    apply halts_foldOnto hu
    intro t mem u hu
    exact ih t mem (by omega) hu ((each t mem).mono (by omega))

/-- Trees that nest to some depth come to an end, folded onto each other. -/
theorem halts_fold (env : String → Option Tree) (n : Nat) : HaltsWithin env n := by
  induction n using Nat.strong_induction_on with
  | _ n ih =>
    intro t u ht hu
    exact halts_of_inner ih (Nat.le_refl n) ht hu

/-- A sentence is reduced to a result, if it has words. -/
theorem halts_reduce {items : List Tree} (h : ∀ t ∈ items, Nests env n t) :
    Halts (fun depth => reduce depth items) (fun _ => True) (idle env) := by
  unfold reduce
  cases last : items.getLast? with
  | none => exact (settles_pure trivial).halts _
  | some seed =>
    have run : Halts (fun depth => foldOnto (fold depth) seed items.dropLast) (Nests env n)
        (idle env) := by
      apply halts_foldOnto (h seed (List.mem_of_getLast? last))
      intro t mem u hu
      exact halts_fold env n t u (h t (List.mem_of_mem_dropLast mem)) hu
    apply run.bind
    intro t _
    exact (settles_pure trivial).halts _

end Fold

end Deep

end Tacit
