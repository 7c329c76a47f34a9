import Tacit.Proofs.Builtin.Access
import Tacit.Proofs.Builtin.Odometer
import Tacit.Proofs.Eval.Report
import Tacit.Proofs.Session.Reachable

/-!
Nothing is ever read that is not there. In a reachable store the words that a program can meet are
valid, so a run ends with a valid result or with an error about valid words, and what is to be
shown has a text.

* `endsWell_execute`: how the execution of sentences ends in a well-formed store.
* `reachable_safe`: what holds between any two programs.
-/

namespace Tacit

namespace Eval

/-- How execution ends, if it is not cut off: with a valid result, which has a text, or with an
error about valid words, which has a report. There is no third way. -/
inductive EndsWell : EStateM.Result Failure Store (Option Word) → Prop where
  | empty {s : Store} : EndsWell (.ok none s)
  | result {s : Store} {w : Word} {text : String} : s.Valid w → s.display w = .ok text →
      EndsWell (.ok (some w) s)
  | error {s : Store} {e : EvalError} {report : String} : (∀ w ∈ e.words, s.Valid w) →
      e.report s = .ok report → EndsWell (.error (.error e) s)
  | depthExceeded {s : Store} : EndsWell (.error .depthExceeded s)

/-- What agrees with an evaluation of trees ends well: its result has a deep value, and there is no
fault. -/
theorem Agrees.endsWell {s : Store} {r : EStateM.Result Failure Store (Option Word)}
    {r' : EStateM.Result Scene.Failure Scene (Option Tree)}
    (h : Agrees (fun s => Option.Rel s.Unfolds) s r r') : EndsWell r := by
  cases h with
  | ok _ _ value =>
    cases value with
    | none => exact .empty
    | some unfolds => exact .result unfolds.valid unfolds.display
  | error _ _ _ words =>
    exact .error (Store.valid_of_forall₂ words) (EvalError.report_of_unfolds words)
  | depthExceeded => exact .depthExceeded

/-- Executing valid sentences ends well. -/
theorem endsWell_execute {s : Store} (h : s.WellFormed) (depth : Nat) {sentences : List Sentence}
    (valid : ∀ sentence ∈ sentences, ∀ w ∈ sentence, s.Valid w) :
    EndsWell (execute depth sentences s) := by
  obtain ⟨r, agrees⟩ := exists_agrees_execute h depth valid
  exact agrees.endsWell

end Eval

namespace Store

/-- The store is well-formed, and nothing that starts from it goes wrong: the sentences of a source
are made of valid words, their execution ends well, and every valid word has a text. A call reads
its arguments as the overload that it selects asks for, whatever they are, and the search for that
overload never leaves the readings of an argument. -/
theorem reachable_safe {s : Store} (reachable : s.Reachable) :
    s.WellFormed ∧
    (∀ source sentences, (Source.parse s source).1 = .ok sentences →
      ∀ sentence ∈ sentences, ∀ w ∈ sentence, (Source.parse s source).2.Valid w) ∧
    (∀ depth sentences, (∀ sentence ∈ sentences, ∀ w ∈ sentence, s.Valid w) →
      Eval.EndsWell (Eval.execute depth sentences s)) ∧
    (∀ w, s.Valid w → ∃ text, s.display w = .ok text) ∧
    (∀ name args candidate o, candidate ∈ Builtin.candidates args →
      Builtin.select? name candidate = some o →
      List.Forall₂ Builtin.Access.Fits (o.operation.accesses candidate) args ∧
        ∃ result, o.operation.apply? args = some result) ∧
    (∀ args count, Builtin.Odometer.run count (.start (args.map Builtin.Argument.readings)) =
      ((Builtin.candidates args).take count).map some) := by
  have wellFormed := reachable.wellFormed
  refine ⟨wellFormed, ?_, ?_, ?_, ?_, ?_⟩
  · intro source sentences parsed
    exact Source.valid_of_parse wellFormed parsed
  · intro depth sentences valid
    exact Eval.endsWell_execute wellFormed depth valid
  · intro w valid
    obtain ⟨t, unfolds⟩ := wellFormed.exists_unfolds valid
    exact ⟨_, unfolds.display⟩
  · intro name args candidate o mem selected
    exact ⟨Builtin.fits_of_select? mem selected, Builtin.exists_apply?_of_select? mem selected⟩
  · intro args count
    exact Builtin.Odometer.run_start _ count

/-- In a new session, a pair that a source has written has a text. -/
theorem reachable_safe_pair :
    (Source.parse .withConstants "[1 2]").2.WellFormed ∧
      ∃ text, (Source.parse .withConstants "[1 2]").2.display (.tuple 0) = .ok text := by
  have valid : 0 < (Source.parse .withConstants "[1 2]").2.tuples.size := by decide +kernel
  obtain ⟨wellFormed, -, -, texts, -⟩ := reachable_safe (.parse "[1 2]" .withConstants)
  exact ⟨wellFormed, texts (.tuple 0) valid⟩

end Store

end Tacit
