import Tacit.Proofs.Builtin.Sums
import Tacit.Proofs.Eval.Scans
import Tacit.Proofs.Store.Text

/-!
The sum of an array and its fold by addition, as calls in a store. They come to the same scalar and
are shown as the same text, with one exception: an empty array of doubles has the sum `-0.0` and the
fold `0.0`.

* `ComesTo.prints`: how the result of a call is shown.
* `sum_agrees_with_foldl_add`: the two calls.
-/

namespace Tacit.Eval

open Builtin

/-- A call gives a word for the datum, which is shown as the text. -/
structure Prints (result : EStateM.Result Failure Store Word) (d : Datum) (text : String) :
    Prop where
  comesTo : ComesTo result (.ok d)
  display : ∀ w s, result = .ok w s → s.display w = .ok text

/-- The result of a call is shown as the text of the datum that the call comes to. -/
theorem ComesTo.prints {result : EStateM.Result Failure Store Word} {d : Datum}
    (h : ComesTo result (.ok d)) : Prints result d (String.ofList d.text) where
  comesTo := h
  display := by
    rintro w s rfl
    cases h with
    | ok found => exact (Store.UnfoldsValue.datum.of_get? found).display

variable {s s' : Store} {f g v w : Word} {e : Elem} {xs : List e.Carrier}

/-- The sum of an array of numbers and its fold by addition, whatever the stores and the words are.
Both succeed. They give the same scalar, and words that are shown as the same text, unless the array
is an empty array of doubles. Its sum is the number that sums start from, which is negative zero,
and its fold is positive zero. -/
theorem sum_agrees_with_foldl_add (numbers : e ≠ .bool)
    (sums : Calls s f w "sum" [.datum (.array e xs)])
    (folds : Calls s' g v "foldl" [.function "add", .datum (.array e xs)]) :
    (¬ (e = .double ∧ xs = []) → ∃ x text, Prints (callBuiltin f w s) (.scalar e x) text ∧
      Prints (callBuiltin g v s') (.scalar e x) text) ∧
    (e = .double ∧ xs = [] → Prints (callBuiltin f w s) (.scalar .double (-0.0)) "-0.0" ∧
      Prints (callBuiltin g v s') (.scalar .double 0.0) "0.0") := by
  constructor
  · intro regular
    obtain ⟨x, sum, fold⟩ := exists_call_sum_and_foldl numbers regular
    exact ⟨x, _, (comesTo_callBuiltin sums (by decide) sum).prints,
      (comesTo_callBuiltin folds (by decide) fold).prints⟩
  · rintro ⟨rfl, rfl⟩
    have texts : String.ofList (Datum.scalar .double (-0.0)).text = "-0.0" ∧
        String.ofList (Datum.scalar .double 0.0).text = "0.0" := by
      decide +kernel
    have sum := (comesTo_callBuiltin sums (by decide) call_sum_empty_doubles).prints
    have fold := (comesTo_callBuiltin folds (by decide) call_foldl_add_empty_doubles).prints
    rw [texts.1] at sum
    rw [texts.2] at fold
    exact ⟨sum, fold⟩

/-- The sign of a zero, where there is an item. -/
theorem sum_agrees_with_foldl_add_zeros : ∃ s,
    s = (Source.parse .empty "sum (-0.0 -0.0) foldl [add (-0.0 -0.0)]").2 ∧
    ∃ x text, Prints (callBuiltin (.name 0) (.array .double 0) s) (.scalar .double x) text ∧
      Prints (callBuiltin (.name 1) (.tuple 0) s) (.scalar .double x) text := by
  have wellFormed :=
    (Store.Reachable.empty.parse "sum (-0.0 -0.0) foldl [add (-0.0 -0.0)]").wellFormed
  have shape : (fun s : Store => s.bindings = [] ∧ s.names = #["sum", "foldl", "add"] ∧
      (s.columns .double).arrays = #[[-0.0, -0.0], [-0.0, -0.0]] ∧
      s.tuples = #[.unconnected [.name 2, .array .double 1]])
      (Source.parse .empty "sum (-0.0 -0.0) foldl [add (-0.0 -0.0)]").2 := by
    decide +kernel
  refine ⟨_, rfl, ?_⟩
  revert wellFormed shape
  generalize (Source.parse .empty "sum (-0.0 -0.0) foldl [add (-0.0 -0.0)]").2 = s
  rintro wellFormed ⟨bindings, names, arrays, tuples⟩
  have sums : Calls s (.name 0) (.array .double 0) "sum"
      [.datum (.array .double [-0.0, -0.0])] := by
    obtain ⟨c, same⟩ := Store.Shows.of_wellFormed wellFormed
    have array : s.Unfolds (.array .double 0) _ := .array (by rw [arrays]; rfl)
    refine ⟨Store.name_eq_ok (by rw [names]; rfl), ?_⟩
    rw [arguments_eq_ok same array]
    rfl
  obtain ⟨-, folds⟩ := calls_of_unbound (f := 1) (i := 0) (e := .double) wellFormed bindings
    (by rw [names]; rfl) (by rw [tuples]; rfl) (by rw [names]; rfl) (by rw [arrays]; rfl)
  exact (sum_agrees_with_foldl_add (by decide) sums folds).1 (by decide)

/-- The empty array of doubles is an exception to their agreement, which a program shows. -/
theorem sum_and_foldl_add_of_no_doubles :
    (∃ d d', call "sum" [.datum (.array .double [])] = some (.ok d) ∧
      call "foldl" [.function "add", .datum (.array .double [])] = some (.ok d') ∧ d ≠ d') ∧
    (Session.initial.run 100 "|sum foldl[add _]| to_double ioata 0").1 =
      .ok (some "[-0.0 0.0]") := by
  refine ⟨⟨_, _, call_sum_empty_doubles, call_foldl_add_empty_doubles, by decide +kernel⟩, ?_⟩
  decide +kernel

end Tacit.Eval
