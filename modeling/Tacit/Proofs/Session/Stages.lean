import Tacit.Proofs.Session.Immutable
import Tacit.Proofs.Source.Arranged

/-!
Stages keep the shape in which they were written. Only sources connect tuples to names and make
executors, and they arrange the words of an executor in stages; what evaluation makes comes later
in the columns, and its tuples are connected to nothing.

* `Evaluates.unconnected`: the tuples that evaluation makes.
* `Reachable.wellStaged`: the executors of a reachable store are arranged in stages.
* `stages_as_written`: how they are cut.
-/

namespace Tacit

namespace Store

variable {s s' : Store}

/-! ### Tuples that evaluation makes -/

theorem Step.unconnected (h : s.Step s') {i : Nat} {t : Tuple} (found : s'.tuples[i]? = some t) :
    s.tuples[i]? = some t ∨ t.isConnected = false := by
  cases h with
  | datum d =>
    left
    rcases d with ⟨e, x⟩ | ⟨e, xs⟩ <;> cases e <;> exact found
  | tuple words =>
    simp only [create, Array.getElem?_push] at found
    split at found
    · cases found
      exact .inr rfl
    · exact .inl found
  | setPending | bind => exact .inl found

/-- Tuples that evaluation stores are not connected to names. -/
theorem Steps.unconnected (h : s.Steps s') {i : Nat} {t : Tuple}
    (found : s'.tuples[i]? = some t) : s.tuples[i]? = some t ∨ t.isConnected = false := by
  induction h with
  | refl => exact .inl found
  | tail _ last ih =>
    rcases last.unconnected found with earlier | unconnected
    · exact ih earlier
    · exact .inr unconnected

/-- Evaluation puts into new slots only tuples that are connected to nothing. -/
theorem Evaluates.unconnected (h : s.Evaluates s') {i : Nat} {t : Tuple}
    (new : s.tuples.size ≤ i) (found : s'.tuples[i]? = some t) : t.isConnected = false := by
  rcases h.steps.unconnected found with earlier | unconnected
  · obtain ⟨lt, -⟩ := Array.getElem?_eq_some_iff.mp earlier
    exact absurd lt (Nat.not_lt.mpr new)
  · exact unconnected

/-! ### Executors -/

/-- A new session has no tuple and no executor. -/
theorem wellStaged_withConstants : withConstants.WellStaged := by
  apply withConstants_induct wellStaged_empty
  intro s name x _ h
  have made : (s.create (.datum (.scalar .double x))).2.WellStaged := h.create (by simp)
  -- the binding touches neither column
  refine made.mono ?_ ?_
  · exact fun found => found
  · rfl

/-- Whatever is parsed and executed, the executors that there are were written in stages. -/
theorem Reachable.wellStaged (h : s.Reachable) : s.WellStaged := by
  induction h with
  | empty => exact wellStaged_empty
  | withConstants => exact wellStaged_withConstants
  | parse source _ ih => exact Source.wellStaged_parse ih source
  | @execute s depth sentences _ _ ih =>
    have steps := Eval.stepwise_execute depth sentences s
    exact ih.mono steps.growsTo.tuple steps.columns_eq.2.2

/-- Staged words have stages, which are all of the words, in order. -/
theorem Staged.stages_eq_ok {words : List Word} (h : s.Staged words) :
    ∃ stages, s.stages words = .ok stages ∧ stages.flatten = words ∧
      ∀ stage ∈ stages, s.IsStage stage := by
  obtain ⟨stages, rfl, each⟩ := h.arranged
  exact ⟨stages, stages_of_isStage each, rfl, each⟩

/-- In a reachable store the words of every executor are cut into stages of two sorts: a single
word that is no connected tuple, or a name with a tuple that is connected to the slot of just this
name. None of them is an executor. Evaluation changes nothing about that: its own tuples are
connected to nothing, and it makes no executors. -/
theorem stages_as_written (reachable : s.Reachable) :
    (∀ s', s.Evaluates s' → s'.executors = s.executors ∧
      ∀ (i : Nat) (t : Tuple), s.tuples.size ≤ i → s'.tuples[i]? = some t → t.isConnected = false) ∧
    ∀ (i : Nat) (words : List Word), s.executors[i]? = some words →
      (∃ stages, s.stages words = .ok stages ∧ stages.flatten = words ∧
        ∀ stage ∈ stages, s.IsStage stage) ∧
      ∀ w ∈ words, w.kind ≠ .executor := by
  constructor
  · intro s' evaluates
    exact ⟨evaluates.steps.columns_eq.2.2, fun i t new found => evaluates.unconnected new found⟩
  · intro i words found
    have staged := reachable.wellStaged i words found
    exact ⟨staged.stages_eq_ok, staged.flat⟩

/-- The second tuple behind `f` is connected to nothing, so it is a stage of its own. -/
theorem stages_as_written_chain : ∃ s,
    s = (Source.parse .withConstants "|add[1 _] inc f[1][2]|").2 ∧
    s.stages [.name 0, .tuple 0, .name 1, .name 2, .tuple 1, .tuple 2] =
      .ok [[.name 0, .tuple 0], [.name 1], [.name 2, .tuple 1], [.tuple 2]] ∧
    s.IsStage [.name 2, .tuple 1] ∧ s.IsStage [.tuple 2] := by
  have reachable := Reachable.withConstants.parse "|add[1 _] inc f[1][2]|"
  have shape : (fun s : Store =>
      s.executors = #[[.name 0, .tuple 0, .name 1, .name 2, .tuple 1, .tuple 2]] ∧
      s.stages [.name 0, .tuple 0, .name 1, .name 2, .tuple 1, .tuple 2] =
        .ok [[.name 0, .tuple 0], [.name 1], [.name 2, .tuple 1], [.tuple 2]])
      (Source.parse .withConstants "|add[1 _] inc f[1][2]|").2 := by
    decide +kernel
  refine ⟨_, rfl, ?_⟩
  revert reachable shape
  generalize (Source.parse .withConstants "|add[1 _] inc f[1][2]|").2 = s
  rintro reachable ⟨executors, cut⟩
  obtain ⟨-, each⟩ := stages_as_written reachable
  obtain ⟨⟨stages, cut', -, staged⟩, -⟩ := each 0 _ (by rw [executors]; rfl)
  cases cut.symm.trans cut'
  exact ⟨cut, staged _ (by decide), staged _ (by decide)⟩

end Store

end Tacit
