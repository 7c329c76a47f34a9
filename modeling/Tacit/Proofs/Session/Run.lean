import Tacit.Proofs.Eval.Depth
import Tacit.Proofs.Eval.Steps
import Tacit.Session

/-!
Running a source: it is parsed, and what it says is executed unless it is refused. A run that is
not cut off does not depend on the depth that it was given.

* `run_of_refused`, `run_of_parsed`: the two ways a run can go.
* `run_of_le`: more depth changes nothing.
-/

namespace Tacit

namespace Session

variable {s s' : Store} {depth depth' : Nat} {source : String}

def answer : EStateM.Result Failure Store (Option Word) → Except SessionError (Option String)
  | .ok result s => resultText s result
  | .error e s => .error (failure s e)

/-- A source that is refused is not executed, and its values stay. -/
theorem run_of_refused {e : ParseError} (refused : Source.parse s source = (.error e, s')) :
    (mk s).run depth source = (.error (.parse e), ⟨s'⟩) := by
  rw [run, refused]

/-- A source that is parsed is executed in the store that the parse leaves. -/
theorem run_of_parsed {sentences : List Sentence}
    (parsed : Source.parse s source = (.ok sentences, s')) :
    (mk s).run depth source =
      (answer (Eval.execute depth sentences s'), ⟨(Eval.execute depth sentences).after s'⟩) := by
  rw [run, parsed]
  simp only [Eval.after]
  cases Eval.execute depth sentences s' <;> rfl

/-- The store that a run leaves. -/
theorem store_run (depth : Nat) (s : Store) (source : String) :
    ((mk s).run depth source).2.store = match (Source.parse s source).1 with
      | .error _ => (Source.parse s source).2
      | .ok sentences => (Eval.execute depth sentences).after (Source.parse s source).2 := by
  cases parsed : Source.parse s source with
  | mk outcome s' =>
    cases outcome with
    | error e => rw [run_of_refused parsed]
    | ok sentences => rw [run_of_parsed parsed]

/-! ### Depth -/

/-- A run that is not cut off is the same one level deeper. -/
theorem run_succ {session : Session}
    (uncut : (session.run depth source).1 ≠ .error .depthExceeded) :
    session.run (depth + 1) source = session.run depth source := by
  cases parsed : Source.parse session.store source with
  | mk outcome s' =>
    cases outcome with
    | error e => rw [run_of_refused parsed, run_of_refused parsed]
    | ok sentences =>
      rw [run_of_parsed parsed] at uncut
      rw [run_of_parsed parsed, run_of_parsed parsed, Eval.after, Eval.after]
      rcases Eval.execute_deepens depth sentences s' with ⟨t, cut⟩ | eq
      · rw [cut] at uncut
        exact absurd rfl uncut
      · rw [eq]

/-- A run that is not cut off is the same at every greater depth. -/
theorem run_of_le {session : Session} (uncut : (session.run depth source).1 ≠ .error .depthExceeded)
    (le : depth ≤ depth') : session.run depth' source = session.run depth source := by
  induction le with
  | refl => rfl
  | step _ ih => rw [run_succ (by rwa [ih]), ih]

/-- The source comes to an end, with an answer, and leaves a session. -/
def Ends (session : Session) (source : String) (answer : Except SessionError (Option String))
    (session' : Session) : Prop :=
  answer ≠ .error .depthExceeded ∧ ∃ depth, session.run depth source = (answer, session')

/-- A run that is not cut off ends. -/
theorem ends_of_uncut {session : Session}
    (uncut : (session.run depth source).1 ≠ .error .depthExceeded) :
    session.Ends source (session.run depth source).1 (session.run depth source).2 :=
  ⟨uncut, depth, rfl⟩

/-- With enough depth a source comes to its end. -/
theorem Ends.exists_enough {session session' : Session}
    {answer : Except SessionError (Option String)} (h : session.Ends source answer session') :
    ∃ enough, ∀ depth, enough ≤ depth → session.run depth source = (answer, session') := by
  obtain ⟨uncut, enough, eq⟩ := h
  refine ⟨enough, ?_⟩
  intro depth le
  rw [← eq]
  apply run_of_le ?_ le
  rw [eq]
  exact uncut

/-- A source comes to one end only, whatever the depth. -/
theorem Ends.run_eq {session session' : Session} {answer : Except SessionError (Option String)}
    (h : session.Ends source answer session') (uncut : (session.run depth source).1 ≠
      .error .depthExceeded) : session.run depth source = (answer, session') := by
  obtain ⟨ends, enough, eq⟩ := h
  rcases Nat.le_total depth enough with le | le
  · rw [← eq, run_of_le uncut le]
  · rw [run_of_le (by rw [eq]; exact ends) le, eq]

end Session

end Tacit
