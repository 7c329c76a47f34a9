import Tacit.Proofs.Eval.Deep
import Tacit.Proofs.Store.Text

/-!
Reports of errors. What is told of an error depends on its kind and on the deep values of the
words that it is about, and it can always be told.

* `report_of_unfolds`: the report, from the deep values.
-/

namespace Tacit

namespace EvalError

/-- The message of the errors of a kind. -/
def Kind.message : Kind → String
  | .nameNotFound => "Name not found."
  | .nameAlreadyTaken => "Name is already taken."
  | .cannotAssign => "Only a name can be assigned to."
  | .noMatchingOverload => "No overload of the function accepts the argument."
  | .placeholderOutOfRange n =>
    "Placeholder " ++ String.ofList (placeholderText n) ++ " is out of range."
  | .placeholderOntoPlaceholder => "Cannot fold a placeholder to another."
  | .noValue => "Cannot fold word."
  | .cannotFold => "Could not fold words."
  | .operation e => e.message

def Kind.report (k : Kind) (trees : List Tree) : String :=
  (trees.map fun t => String.ofList t.text).foldl (fun report text => report ++ "\nword: " ++ text)
    k.message

/-- The message of an error is that of its kind. -/
theorem message_eq (e : EvalError) : e.message = e.kind.message := by
  cases e with
  | cannotFold left right => cases right <;> rfl
  | _ => rfl

/-- The report of an error is made of its kind and of the trees of its words. -/
theorem report_of_unfolds {s : Store} {e : EvalError} {trees : List Tree}
    (h : List.Forall₂ s.Unfolds e.words trees) : e.report s = .ok (e.kind.report trees) := by
  have texts := mapM_eq_ok h fun _ _ => Store.Unfolds.display
  rw [report, texts, Kind.report, ← message_eq]
  rfl

end EvalError

end Tacit
