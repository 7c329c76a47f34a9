import Tacit.Proofs.Session.Reachable
import Tacit.Proofs.Store.Text

/-!
Values and bindings are immutable. Whatever is run, and whether it succeeds or not, columns and
the binding table only grow, so words keep their deep values and texts.

* `Operates.growsTo`: all operations make a store grow.
* `immutable`: what that means for the words of a reachable store.
-/

namespace Tacit

namespace Store

/-- What the evaluation of words leaves, with success or without. -/
inductive Evaluates (s : Store) : Store → Prop where
  | fold (depth : Nat) (left right : Word) : Evaluates s ((Eval.fold depth left right).after s)
  | reduce (depth : Nat) (words : Sentence) : Evaluates s ((Eval.reduce depth words).after s)
  | execute (depth : Nat) (sentences : List Sentence) :
      Evaluates s ((Eval.execute depth sentences).after s)

/-- What an operation on a store leaves, with success or without. -/
inductive Operates (s : Store) : Store → Prop where
  | parse (source : String) : Operates s (Source.parse s source).2
  | evaluate {s' : Store} : s.Evaluates s' → Operates s s'
  | run (depth : Nat) (source : String) : Operates s ((Session.mk s).run depth source).2.store

variable {s s' : Store} {w : Word}

/-- Evaluation is made of steps, whether it ends well, fails or is cut off. -/
theorem Evaluates.steps (h : s.Evaluates s') : s.Steps s' := by
  cases h with
  | fold depth left right => exact Eval.stepwise_fold depth left right s
  | reduce depth words => exact Eval.stepwise_reduce depth words s
  | execute depth sentences => exact Eval.stepwise_execute depth sentences s

/-- No operation on the store changes what was stored before. -/
theorem Operates.growsTo (h : s.Operates s') : s.GrowsTo s' := by
  cases h with
  | parse source => exact (Source.makes_parse s source).growsTo
  | evaluate evaluates => exact evaluates.steps.growsTo
  | run depth source => exact Session.growsTo_run depth s source

/-- A valid word keeps its deep value and its text when the store grows. -/
theorem GrowsTo.keeps (grows : s.GrowsTo s') (wellFormed : s.WellFormed) (valid : s.Valid w) :
    ∃ t, s.Unfolds w t ∧ s'.Unfolds w t ∧ ∃ text, s.display w = .ok text ∧
      s'.display w = .ok text := by
  obtain ⟨t, unfolds⟩ := wellFormed.exists_unfolds valid
  have later := unfolds.mono grows
  exact ⟨t, unfolds, later, _, unfolds.display, later.display⟩

/-- No operation takes away, moves or changes anything: each column is a prefix of what it
becomes, each name stays bound to its word, and each valid word keeps its deep value and its
text. Parsing leaves alone the bindings and the pending assignment, and evaluation makes no
names, blocks and executors. -/
theorem immutable (reachable : s.Reachable) :
    (∀ s', s.Operates s' → s.GrowsTo s' ∧ ∀ w, s.Valid w → ∃ t, s.Unfolds w t ∧ s'.Unfolds w t ∧
      ∃ text, s.display w = .ok text ∧ s'.display w = .ok text) ∧
    (∀ source, (Source.parse s source).2.bindings = s.bindings ∧
      (Source.parse s source).2.pending = s.pending) ∧
    (∀ s', s.Evaluates s' → s'.names = s.names ∧ s'.blocks = s.blocks ∧
      s'.executors = s.executors) := by
  refine ⟨?_, ?_, ?_⟩
  · intro s' operates
    have grows := operates.growsTo
    refine ⟨grows, ?_⟩
    intro w valid
    exact grows.keeps reachable.wellFormed valid
  · intro source
    have makes := Source.makes_parse s source
    exact ⟨makes.bindings_eq, makes.pending_eq⟩
  · intro s' evaluates
    exact evaluates.steps.columns_eq

/-- A source that fails after its first line takes nothing away. -/
theorem immutable_after_failure :
    (Source.parse .withConstants "[1 2]").2.GrowsTo
      ((Session.mk (Source.parse .withConstants "[1 2]").2).run 20 "x: 5\nx: 6").2.store :=
  ((immutable (.parse "[1 2]" .withConstants)).1 _ (.run 20 "x: 5\nx: 6")).1

end Store

end Tacit
