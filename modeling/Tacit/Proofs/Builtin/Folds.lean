import Mathlib.Data.List.Pairwise
import Tacit.Proofs.Builtin.Resolution

/-!
Folds and scans of arrays. The two are separate loops, and two rows of the table for each element
type, but a scan gives the folds of all beginnings of its array, and both take the same operators.

* `scanArray_cases`: a scan fails with the fold, or lists the folds of the beginnings.
* `call_map`, `call_collapse`, `call_rearrange`: what builtins of one argument give.
* `call_foldl`, `call_scanl`: what the two builtins give for the name of a function and an array.
* `call_operator`: what that function gives for two scalars.
-/

namespace Tacit.Builtin

/-! ### Loops -/

section Loops

variable {α : Type} (f : α → α → Option α) (zero : α)

/-- A scan that goes on from an accumulator fails with the fold from there, or it appends the folds
of all beginnings. -/
theorem scanFrom_cases (earlier : List α) (last : α) (xs : List α) :
    (scanFrom f earlier last xs = none ∧ xs.foldlM f last = none) ∨
    ∃ later, scanFrom f earlier last xs = some (earlier.reverse ++ later) ∧
      later.length = xs.length + 1 ∧ ∀ i ≤ xs.length, later[i]? = (xs.take i).foldlM f last := by
  induction xs generalizing earlier last with
  | nil =>
    refine .inr ⟨[last], by simp [scanFrom], rfl, fun i le => ?_⟩
    obtain rfl := Nat.le_zero.mp le
    rfl
  | cons x xs ih =>
    rw [scanFrom, List.foldlM_cons]
    cases step : f last x with
    | none => exact .inl ⟨rfl, rfl⟩
    | some next =>
      rcases ih (last :: earlier) next with ⟨none, none'⟩ | ⟨later, eq, length, each⟩
      · exact .inl ⟨none, none'⟩
      · refine .inr ⟨last :: later, by simp [eq], by simp [length], fun i le => ?_⟩
        cases i with
        | zero => rfl
        | succ i =>
          rw [List.getElem?_cons_succ, List.take_succ_cons, List.foldlM_cons, step]
          exact each i (Nat.le_of_succ_le_succ le)

/-- A scan fails with the fold, or it lists the folds of the beginnings. -/
theorem scanArray_cases (xs : List α) :
    (scanArray f xs = none ∧ foldArray f zero xs = none) ∨
    ∃ x ys, foldArray f zero xs = some x ∧ scanArray f xs = some ys ∧ ys.length = xs.length ∧
      ∀ i < xs.length, ys[i]? = foldArray f zero (xs.take (i + 1)) := by
  cases xs with
  | nil => exact .inr ⟨zero, [], rfl, rfl, rfl, fun i lt => absurd lt (Nat.not_lt_zero i)⟩
  | cons x xs =>
    rcases scanFrom_cases f [] x xs with ⟨none, none'⟩ | ⟨ys, eq, length, each⟩
    · exact .inl ⟨none, none'⟩
    · have last := each xs.length (Nat.le_refl _)
      rw [List.take_length, List.getElem?_eq_getElem (length ▸ Nat.lt_succ_self _)] at last
      exact .inr ⟨_, ys, last.symm, eq, length, fun i lt => each i (Nat.le_of_lt_succ lt)⟩

variable {f zero}

/-- The fold of an array goes on from the fold of its beginning, unless this is empty. -/
theorem foldArray_append {xs ys : List α} (nonempty : xs ≠ []) :
    foldArray f zero (xs ++ ys) = (foldArray f zero xs).bind fun y => ys.foldlM f y := by
  cases xs with
  | nil => exact absurd rfl nonempty
  | cons x xs => exact List.foldlM_append

/-- A fold that fails at a beginning fails. -/
theorem foldArray_eq_none {xs : List α} {k : Nat} (fails : foldArray f zero (xs.take k) = none) :
    foldArray f zero xs = none := by
  have nonempty : xs.take k ≠ [] := by
    intro empty
    rw [empty] at fails
    cases fails
  rw [← List.take_append_drop k xs, foldArray_append nonempty, fails]
  rfl

/-- One more element is one more step. -/
theorem foldArray_take_succ {xs : List α} {i : Nat} {x y y' : α} (found : xs[i + 1]? = some x)
    (fold : foldArray f zero (xs.take (i + 1)) = some y)
    (fold' : foldArray f zero (xs.take (i + 2)) = some y') : f y x = some y' := by
  have nonempty : xs.take (i + 1) ≠ [] := by
    cases xs with
    | nil => cases found
    | cons => exact List.cons_ne_nil _ _
  rw [List.take_add_one, found, Option.toList_some, foldArray_append nonempty, fold] at fold'
  simpa using fold'

end Loops

/-! ### Calls -/

section Calls

variable {name op : String} {e : Elem} {xs : List e.Carrier} {o : Overload}
  {g : e.Carrier → e.Carrier → Option e.Carrier}

/-- What a function is read as together with an array. -/
def operatorReadings (e : Elem) : List Reading :=
  [.exact (.ofSignature (Operation.operatorSignature e)), .exact (.array e)]

/-- The overload of an operator on an element type. -/
theorem exists_overload_of_operator? (h : operator? op e = some g) :
    ∃ o ∈ overloads op, o.signature = Operation.operatorSignature e ∧ o.operation = .zip e e g := by
  rw [operator?] at h
  obtain ⟨o, found, h⟩ := Option.bind_eq_some_iff.mp h
  rw [findSignature?] at found
  refine ⟨o, List.mem_of_find?_eq_some found, by simpa using List.find?_some found, ?_⟩
  generalize o.operation = operation at h
  cases operation with
  | zip a r f =>
    cases e <;> cases a <;> cases r <;> cases h <;> rfl
  | map | generate | collapse | rearrange | fold | scan => cases h

theorem isBuiltin_of_operator? (h : operator? op e = some g) : isBuiltin op = true := by
  obtain ⟨o, mem, -⟩ := exists_overload_of_operator? h
  rw [isBuiltin, Bool.not_eq_true', List.isEmpty_eq_false_iff]
  exact List.ne_nil_of_mem mem

/-- One argument, taken as of its own type. -/
theorem call_own {x : Argument} {t : ArgType} {d : Datum} (own : x.Own (.exact t))
    (found : find? name [t] = some o) (applied : o.operation.apply? [x] = some (.ok d)) :
    call name [x] = some (.ok d) := by
  have selected : select? name [.exact t] = some o := by
    have found : find? name ([.exact t].map Reading.type) = some o := found
    rw [select?, found]
    rfl
  have decides : Decides name [x] [.exact t] o := decides_of_own (.cons own .nil) selected
  exact call_of_decides decides applied

theorem array?_self (xs : List e.Carrier) : (Argument.datum (.array e xs)).array? e = some xs := by
  cases e <;> rfl

theorem operand?_self (x : e.Carrier) :
    (Argument.datum (.scalar e x)).operand? e = some (.one x) := by
  cases e <;> rfl

/-- A builtin from scalars to scalars. -/
theorem call_map {r : Elem} {f : e.Carrier → r.Carrier}
    (found : find? name [.scalar e] = some ⟨name, .map e r f⟩) (x : e.Carrier) :
    call name [.datum (.scalar e x)] = some (.ok (.scalar r (f x))) :=
  call_own (t := .scalar e) rfl found (apply_map (operand?_self x))

/-- A builtin from arrays to scalars. -/
theorem call_collapse {r : Elem} {f : List e.Carrier → r.Carrier}
    (found : find? name [.array e] = some ⟨name, .collapse e r f⟩) (xs : List e.Carrier) :
    call name [.datum (.array e xs)] = some (.ok (.scalar r (f xs))) :=
  call_own (t := .array e) rfl found (by simp [array?_self, Operation.apply?])

/-- A builtin from arrays to arrays. -/
theorem call_rearrange {f : List e.Carrier → List e.Carrier}
    (found : find? name [.array e] = some ⟨name, .rearrange e f⟩) (xs : List e.Carrier) :
    call name [.datum (.array e xs)] = some (.ok (.array e (f xs))) :=
  call_own (t := .array e) rfl found (by simp [array?_self, Operation.apply?])

/-- A function that is an operator on the element type is taken with the array. -/
theorem decides_on_operator (found : find? name ((operatorReadings e).map Reading.type) = some o)
    (accepted : operator? op e = some g) :
    Decides name [.function op, .datum (.array e xs)] (operatorReadings e) o := by
  obtain ⟨o', mem, signature, -⟩ := exists_overload_of_operator? accepted
  have own : (Argument.function op).Own (.exact (.ofSignature (Operation.operatorSignature e))) :=
    List.mem_map.mpr ⟨o', mem, by rw [signature]⟩
  have selected : select? name (operatorReadings e) = some o := by
    rw [select?, found]
    rfl
  exact decides_of_own (.cons own (.cons rfl .nil)) selected

/-- No other function is taken. -/
theorem call_eq_none_of_operator? (rejected : operator? op e = none) :
    call name [.function op, .datum (.array e xs)] = none := by
  refine call_eq_none fun c mem => Option.eq_none_iff_forall_ne_some.mpr fun o selected => ?_
  obtain ⟨e', xs', eq, rfl⟩ := eq_of_select?_of_function (.head _) mem selected
  cases eq
  obtain ⟨first, -⟩ := List.forall₂_cons.mp (mem_candidates_iff.mp mem)
  have fits : (Access.operator e).Fits (.function op) := fits_of_operator first rfl
  have some : (operator? op e).isSome = true := fits
  rw [rejected] at some
  cases some

theorem settled_defined {α : Type} (f : α → Datum) (x : Option α) :
    settled (defined (x.map f)) = some (defined (x.map f)) := by
  cases x <;> rfl

/-- A fold by the name of an operator gives the fold by that operator. -/
theorem call_foldl (accepted : operator? op e = some g) (xs : List e.Carrier) :
    call "foldl" [.function op, .datum (.array e xs)] =
      some (defined ((foldArray g e.zero xs).map (.scalar e))) := by
  have found : find? "foldl" ((operatorReadings e).map Reading.type) =
      some ⟨"foldl", .fold e⟩ := by
    cases e <;> rfl
  have applied : Operation.apply? (.fold e) [.function op, .datum (.array e xs)] =
      some (defined ((foldArray g e.zero xs).map (.scalar e))) := by
    simp [accepted, array?_self, Operation.apply?, Argument.operator?]
  rw [call_of_decides (decides_on_operator found accepted) applied, settled_defined]

/-- A scan by the name of an operator gives the accumulators of the fold by that operator. -/
theorem call_scanl (accepted : operator? op e = some g) (xs : List e.Carrier) :
    call "scanl" [.function op, .datum (.array e xs)] =
      some (defined ((scanArray g xs).map (.array e))) := by
  have found : find? "scanl" ((operatorReadings e).map Reading.type) =
      some ⟨"scanl", .scan e⟩ := by
    cases e <;> rfl
  have applied : Operation.apply? (.scan e) [.function op, .datum (.array e xs)] =
      some (defined ((scanArray g xs).map (.array e))) := by
    simp [accepted, array?_self, Operation.apply?, Argument.operator?]
  rw [call_of_decides (decides_on_operator found accepted) applied, settled_defined]

/-- Overloads of one name differ in their parameters. -/
theorem pairwise_params_ne :
    table.Pairwise fun o o' => o.name = o'.name → o.signature.params ≠ o'.signature.params := by
  decide +kernel

/-- Each overload is found by its parameters, since no other one of its name has the same. -/
theorem find?_of_mem (mem : o ∈ overloads name) : find? name o.signature.params = some o := by
  have some : (find? name o.signature.params).isSome = true := by
    rw [find?, List.find?_isSome]
    exact ⟨o, mem, decide_eq_true rfl⟩
  obtain ⟨o', found⟩ := Option.isSome_iff_exists.mp some
  obtain ⟨mem', same⟩ := of_find?_eq_some found
  obtain ⟨listed, named⟩ := List.mem_filter.mp mem
  obtain ⟨listed', named'⟩ := List.mem_filter.mp mem'
  have named : o'.name = o.name := (of_decide_eq_true named').trans (of_decide_eq_true named).symm
  have : Std.Symm fun o o' : Overload =>
      o.name = o'.name → o.signature.params ≠ o'.signature.params :=
    ⟨fun _ _ differ eq => (differ eq.symm).symm⟩
  have eq : o' = o := by
    by_contra differ
    exact pairwise_params_ne.forall listed' listed differ named same
  rw [found, eq]

/-- The function itself, called with two scalars. -/
theorem call_operator (accepted : operator? op e = some g) (y x : e.Carrier) :
    call op [.datum (.scalar e y), .datum (.scalar e x)] =
      some (defined ((g y x).map (.scalar e))) := by
  obtain ⟨o, mem, signature, operation⟩ := exists_overload_of_operator? accepted
  have found := find?_of_mem mem
  rw [signature] at found
  have selected : select? op [.exact (.scalar e), .exact (.scalar e)] = some o := by
    have found : find? op ([.exact (.scalar e), .exact (.scalar e)].map Reading.type) = some o :=
      found
    rw [select?, found]
    rfl
  have applied : o.operation.apply? [.datum (.scalar e y), .datum (.scalar e x)] =
      some (defined ((g y x).map (.scalar e))) := by
    rw [operation]
    exact apply_zip_ones (operand?_self y) (operand?_self x)
  have decides : Decides op [.datum (.scalar e y), .datum (.scalar e x)] _ o :=
    decides_of_own (.cons rfl (.cons rfl .nil)) selected
  rw [call_of_decides decides applied, settled_defined]

end Calls

end Tacit.Builtin
