import Mathlib
import Tacit.Proofs.Builtin.Folds

/-!
Sums of arrays, and folds by addition. A sum starts from a number that is neutral, a fold from the
first item, so the two differ for an empty array only, and there only in the sign of a zero. The
lemmas about packed doubles that this rests on are in no module of the library that can be imported
for itself, so the library is imported whole.

* `Double.neg_zero_add`: negative zero is neutral for all doubles.
* `foldArray_of_neutral`: a fold by an operator that is always defined, as a fold from such a start.
* `call_foldl_of_neutral`: what a fold by such an operator gives.
* `exists_call_sum_and_foldl`: the two builtins on an array of numbers.
-/

namespace Tacit

/-! ### Neutral numbers -/

namespace Double

open Float.Model

/-- Negative zero is neutral before anything is rounded or packed. -/
theorem unpacked_neg_zero_add (spec : Format) (x : UnpackedFloat) :
    UnpackedFloat.add spec (.zero .negative) x = x := by
  cases x with
  | zero sign => cases sign <;> rfl
  | notANumber | infinity | finite => rfl

theorem unpack_neg_zero : (-0.0 : Float).toModel.unpack = .zero .negative := by
  have bits : (-0.0 : Float).toModel = .pack (.zero .negative) := by decide +kernel
  rw [bits]
  exact UnpackedFloat.unpack_packedZero

/-- A double is the packed form of what it unpacks to, since there is one bit pattern only for all
values that are no number. -/
theorem pack_unpack (x : Float.Model) : Float.Model.pack x.unpack = x := by
  obtain ⟨bits, valid⟩ := x
  simp only [Float.Model.pack, Float.Model.unpack]
  congr
  exact UnpackedFloat.pack_unpack_of_valid valid

/-- Negative zero is neutral, also for the two zeros. -/
theorem neg_zero_add (x : Float) : -0.0 + x = x := by
  have unpacked : (-0.0 : Float).toModel + x.toModel =
      .pack (UnpackedFloat.add .binary64 (-0.0 : Float).toModel.unpack x.toModel.unpack) := rfl
  rw [unpack_neg_zero, unpacked_neg_zero_add, pack_unpack] at unpacked
  exact congrArg Float.ofModel unpacked

/-- Positive zero is not neutral. -/
example : (0.0 : Float) + -0.0 ≠ -0.0 := by decide +kernel

end Double

namespace Builtin

/-! ### Loops -/

/-- A fold is a fold from a neutral start, except for an empty array, where it gives what is given
for it. -/
theorem foldArray_of_neutral {α : Type} {f : α → α → α} {start zero : α}
    (neutral : ∀ x, f start x = x) {xs : List α} (starts : xs = [] → zero = start) :
    foldArray (fun x y => some (f x y)) zero xs = some (xs.foldl f start) := by
  cases xs with
  | nil => rw [starts rfl]; rfl
  | cons x xs =>
    rw [foldArray, List.foldl_cons, neutral]
    exact List.foldlM_pure

/-! ### Calls -/

section Calls

variable {name op : String} {e : Elem}

/-- A fold by an operator that is always defined. -/
theorem call_foldl_of_neutral {f : e.Carrier → e.Carrier → e.Carrier}
    (accepted : operator? op e = some fun x y => some (f x y)) {start : e.Carrier}
    (neutral : ∀ x, f start x = x) {xs : List e.Carrier} (starts : xs = [] → e.zero = start) :
    call "foldl" [.function op, .datum (.array e xs)] =
      some (.ok (.scalar e (xs.foldl f start))) := by
  rw [call_foldl accepted, foldArray_of_neutral neutral starts]
  rfl

/-- The two builtins give the same scalar, unless the array is an empty array of doubles. -/
theorem exists_call_sum_and_foldl (numbers : e ≠ .bool) {xs : List e.Carrier}
    (regular : ¬ (e = .double ∧ xs = [])) :
    ∃ x, call "sum" [.datum (.array e xs)] = some (.ok (.scalar e x)) ∧
      call "foldl" [.function "add", .datum (.array e xs)] = some (.ok (.scalar e x)) := by
  cases e with
  | int =>
    exact ⟨sumInts xs, call_collapse rfl xs,
      call_foldl_of_neutral rfl Int32.zero_add fun _ => rfl⟩
  | double =>
    exact ⟨sumDoubles xs, call_collapse rfl xs,
      call_foldl_of_neutral rfl Double.neg_zero_add fun empty => absurd ⟨rfl, empty⟩ regular⟩
  | bool => exact absurd rfl numbers

/-- The sum of no doubles is negative zero. -/
theorem call_sum_empty_doubles :
    call "sum" [.datum (.array .double [])] = some (.ok (.scalar .double (-0.0))) :=
  call_collapse (e := .double) (r := .double) (f := sumDoubles) rfl []

/-- The fold of no doubles by addition is positive zero. -/
theorem call_foldl_add_empty_doubles :
    call "foldl" [.function "add", .datum (.array .double [])] =
      some (.ok (.scalar .double 0.0)) :=
  call_foldl (g := fun x y => some (x + y)) rfl []

end Calls

end Builtin

end Tacit
