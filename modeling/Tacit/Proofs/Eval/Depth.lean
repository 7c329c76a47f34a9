import Tacit.Proofs.Eval.Congruence

/-!
The depth of folds. An evaluation that is not cut off is the same at every greater depth, so that
what a program does is a matter of the program alone.

* `eq_of_deepens`: what is not cut off is the same at every greater depth.
* `fold_deepens`, `reduce_deepens`, `execute_deepens`: one more fold inside the others, for the
  whole evaluator.
-/

namespace Tacit

namespace Eval

/-- The second evaluation does what the first does, unless the first is cut off. -/
def Deepens {α : Type} (m m' : Eval α) : Prop :=
  ∀ s, (∃ t, m s = .error .depthExceeded t) ∨ m s = m' s

theorem Deepens.refl {α : Type} (m : Eval α) : Deepens m m := fun _ => .inr rfl

/-- Deepening is kept in sequence, since a cut-off ends a sequence. -/
theorem Deepens.bind {α β : Type} {m m' : Eval α} {f f' : α → Eval β} (hm : Deepens m m')
    (hf : ∀ a, Deepens (f a) (f' a)) : Deepens (m >>= f) (m' >>= f') := by
  intro s
  rcases hm s with ⟨t, cut⟩ | eq
  · exact .inl ⟨t, bind_of_error cut⟩
  · cases first : m' s with
    | ok a t =>
      rw [bind_of_ok (eq.trans first), bind_of_ok first]
      exact hf a t
    | error e t =>
      rw [bind_of_error (eq.trans first), bind_of_error first]
      exact .inr rfl

/-- What is not cut off at one depth is the same from there on. -/
theorem eq_of_deepens {α : Type} {m : Nat → Eval α} (h : ∀ depth, Deepens (m depth) (m (depth + 1)))
    {s : Store} {depth : Nat} (uncut : ∀ t, m depth s ≠ .error .depthExceeded t) {depth' : Nat}
    (le : depth ≤ depth') : m depth' s = m depth s := by
  induction le with
  | refl => rfl
  | @step depth' _ ih =>
    rcases h depth' s with ⟨t, cut⟩ | eq
    · exact absurd (ih.symm.trans cut) (uncut t)
    · exact eq.symm.trans ih

/-- Deepening relates evaluations whose folds it relates. -/
theorem deepens_congruence : Congruence @Deepens where
  bind := Deepens.bind
  quiet := fun _ => .refl _
  datum := fun _ => .refl _
  tuple := fun _ => .refl _
  armAssignment := .refl _
  resetAssignment := .refl _
  takeAssignment := .refl _
  assign := fun _ _ => .refl _

/-- One more level of depth changes a fold only where it was cut off. -/
theorem fold_deepens (depth : Nat) (left right : Word) :
    Deepens (fold depth left right) (fold (depth + 1) left right) := by
  induction depth generalizing left right with
  | zero => exact fun s => .inl ⟨s, rfl⟩
  | succ depth ih => exact deepens_congruence.foldStep ih left right

/-- One more level of depth changes a sentence only where it was cut off. -/
theorem reduce_deepens (depth : Nat) (words : Sentence) :
    Deepens (reduce depth words) (reduce (depth + 1) words) :=
  deepens_congruence.reduce (fold_deepens depth) words

/-- One more level of depth changes a source text only where it was cut off. -/
theorem execute_deepens (depth : Nat) (sentences : List Sentence) :
    Deepens (execute depth sentences) (execute (depth + 1) sentences) :=
  deepens_congruence.execute (fold_deepens depth) sentences

end Eval

end Tacit
