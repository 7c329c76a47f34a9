import Tacit.Proofs.Builtin.Wrapping
import Tacit.Proofs.Eval.Overloads
import Tacit.Proofs.Eval.Scans

/-!
Builtins of integers, as calls in a store. A reduction of an array wraps its exact result, however
often it wraps on the way, so the order of the items does not matter to a sum or a product. No call
on integers fails but for want of an overload, or for a divisor that is zero.

* `gives_of_call`: what a builtin gives, its calls come to.
* `failure_of_ints`, `failure_of_reduction`: what calls on integers fail for.
* `integers_exact`: reductions, functions and failures.
-/

namespace Tacit.Eval

open Builtin

/-- All calls of a name with the arguments come to one outcome, whatever the stores and the words
are. -/
def Gives (name : String) (args : List Argument) (outcome : Except OperationError Datum) : Prop :=
  ∀ s f w, Calls s f w name args → ComesTo (callBuiltin f w s) outcome

/-- What a builtin gives does not depend on the store and the words of a call. -/
theorem gives_of_call {name : String} {args : List Argument}
    {outcome : Except OperationError Datum} (builtin : isBuiltin name = true)
    (gives : call name args = some outcome) : Gives name args outcome :=
  fun _ _ _ calls => comesTo_callBuiltin calls builtin gives

abbrev GivesInt (name : String) (args : List Argument) (n : Int32) : Prop :=
  Gives name args (.ok (.scalar .int n))

abbrev ints (xs : List Int32) : Argument := .datum (.array .int xs)

/-! ### Reductions -/

/-- The reductions of an array wrap their exact results. -/
structure ReducesExactly (xs : List Int32) : Prop where
  sum : GivesInt "sum" [ints xs] (wrap (exact xs).sum)
  foldl_add : xs ≠ [] → GivesInt "foldl" [.function "add", ints xs] (wrap (exact xs).sum)
  foldl_mul : xs ≠ [] → GivesInt "foldl" [.function "mul", ints xs] (wrap (exact xs).prod)
  foldl_sub : ∀ x rest, xs = x :: rest →
    GivesInt "foldl" [.function "sub", ints xs] (wrap (x.toInt - (exact rest).sum))
  scanl_add : ∃ ys, Gives "scanl" [.function "add", ints xs] (.ok (.array .int ys)) ∧
    ys.length = xs.length ∧ ∀ i < xs.length, ys[i]? = some (wrap (exact (xs.take (i + 1))).sum)

/-- A fold of integers gives what the loop gives. -/
theorem gives_foldl {op : String} {g : Int32 → Int32 → Option Int32}
    (accepted : operator? op .int = some g) {xs : List Int32} {n : Int32}
    (fold : foldArray g 0 xs = some n) : GivesInt "foldl" [.function op, ints xs] n := by
  refine gives_of_call (by decide) ?_
  rw [call_foldl (e := .int) accepted]
  change some (defined ((foldArray g 0 xs).map _)) = _
  rw [fold]
  rfl

/-- A scan of integers gives what the loop gives. -/
theorem gives_scanl {op : String} {g : Int32 → Int32 → Option Int32}
    (accepted : operator? op .int = some g) {xs ys : List Int32}
    (scan : scanArray g xs = some ys) :
    Gives "scanl" [.function op, ints xs] (.ok (.array .int ys)) := by
  refine gives_of_call (by decide) ?_
  rw [call_scanl (e := .int) accepted, scan]
  rfl

theorem gives_sum (xs : List Int32) : GivesInt "sum" [ints xs] (wrap (exact xs).sum) := by
  refine gives_of_call (by decide) ?_
  rw [← sumInts_eq_wrap]
  exact call_collapse (e := .int) (r := .int) (f := sumInts) rfl xs

/-- All reductions of an array wrap their exact results. -/
theorem reducesExactly (xs : List Int32) : ReducesExactly xs where
  sum := gives_sum xs
  foldl_add := fun nonempty => gives_foldl rfl (foldArray_add 0 nonempty)
  foldl_mul := fun nonempty => gives_foldl rfl (foldArray_mul 0 nonempty)
  foldl_sub := by
    rintro x rest rfl
    exact gives_foldl rfl (foldArray_sub 0 x rest)
  scanl_add := by
    obtain ⟨ys, scan, length, each⟩ := exists_scanArray_add xs
    exact ⟨ys, gives_scanl rfl scan, length, each⟩

structure ReducesAlike (xs ys : List Int32) : Prop where
  sum : ∃ n, GivesInt "sum" [ints xs] n ∧ GivesInt "sum" [ints ys] n
  foldl_add : ∃ n, GivesInt "foldl" [.function "add", ints xs] n ∧
    GivesInt "foldl" [.function "add", ints ys] n
  foldl_mul : ∃ n, GivesInt "foldl" [.function "mul", ints xs] n ∧
    GivesInt "foldl" [.function "mul", ints ys] n

/-- Sums and products do not depend on how an array is arranged. -/
theorem reducesAlike_of_perm {xs ys : List Int32} (perm : xs.Perm ys) : ReducesAlike xs ys := by
  have same : (exact xs).Perm (exact ys) := perm.map _
  by_cases empty : xs = []
  · subst empty
    obtain rfl := List.nil_perm.mp perm
    have zero {op : String} {g : Int32 → Int32 → Option Int32}
        (accepted : operator? op .int = some g) : GivesInt "foldl" [.function op, ints []] 0 :=
      gives_foldl accepted rfl
    exact ⟨⟨_, gives_sum [], gives_sum []⟩, ⟨0, zero rfl, zero rfl⟩, ⟨0, zero rfl, zero rfl⟩⟩
  · have nonempty : ys ≠ [] := fun eq => empty (List.perm_nil.mp (eq ▸ perm))
    have left := reducesExactly xs
    have right := reducesExactly ys
    refine ⟨⟨_, left.sum, ?_⟩, ⟨_, left.foldl_add empty, ?_⟩, ⟨_, left.foldl_mul empty, ?_⟩⟩
    · rw [same.sum_eq]
      exact right.sum
    · rw [same.sum_eq]
      exact right.foldl_add nonempty
    · rw [same.prod_eq]
      exact right.foldl_mul nonempty

theorem gives_sort (xs : List Int32) : Gives "sort" [ints xs] (.ok (.array .int (sortInts xs))) :=
  gives_of_call (by decide) (call_rearrange (e := .int) (f := sortInts) rfl xs)

/-! ### Failures -/

/-- The call is refused: no candidate selects an overload for arrays of one length. -/
def Refused (name : String) (args : List Argument) : Prop :=
  ∀ candidate ∈ candidates args, (select? name candidate).isSome → ∀ n, ¬ Aligned args n

variable {s : Store} {f w : Word} {name : String}

/-- A call on integers and arrays of integers fails if it is refused, or if an item of the divisor
is zero. -/
theorem failure_of_ints {ps : List (Operand Int32)}
    (calls : Calls s f w name (ps.map fun p => .datum (p.datum .int)))
    (builtin : isBuiltin name = true) {failure : Failure} {s' : Store}
    (failed : callBuiltin f w s = .error failure s') :
    failure = .error (.noMatchingOverload f w) ∧
      Refused name (ps.map fun p => .datum (p.datum .int)) ∨
    failure = .error (.operation .divisionByZero) ∧
      name = "div" ∧ ∃ p q i, ps = [p, q] ∧ q.get? i = some 0 := by
  rcases exists_decides_or name (ps.map fun p => .datum (p.datum .int)) with
    ⟨c, o, decides⟩ | unselected
  · have ends := ends_of_decides calls builtin decides
    rw [failed] at ends
    cases ends with
    | divisionByZero undefined =>
      have mem := (of_find?_eq_some (find?_of_select? decides.selected).1).1
      exact .inr ⟨rfl, exists_zero_of_apply?_eq_error mem undefined⟩
    | lengths never => exact .inl ⟨rfl, fun _ _ _ => never⟩
  · cases (callBuiltin_eq_error calls builtin (call_eq_none unselected)).symm.trans failed
    refine .inl ⟨rfl, fun c mem selected => ?_⟩
    simp [unselected c mem] at selected

/-- A fold or scan of integers by an operator on them fails if it divides by an item that is
zero. -/
theorem failure_of_reduction {op : String} {xs : List Int32}
    (reduces : name = "foldl" ∨ name = "scanl") (operator : (operator? op .int).isSome)
    (calls : Calls s f w name [.function op, ints xs]) {failure : Failure} {s' : Store}
    (failed : callBuiltin f w s = .error failure s') :
    failure = .error (.operation .divisionByZero) ∧ op = "div" ∧ 0 ∈ xs.tail := by
  obtain ⟨g, accepted⟩ := Option.isSome_iff_exists.mp operator
  have comes {α : Type} {x : Option α} {d : α → Datum} (builtin : isBuiltin name = true)
      (gives : call name [.function op, ints xs] = some (defined (x.map d))) :
      failure = .error (.operation .divisionByZero) ∧ x = none := by
    have comes := comesTo_callBuiltin calls builtin gives
    rw [failed] at comes
    cases x with
    | none =>
      cases comes
      exact ⟨rfl, rfl⟩
    | some => cases comes
  rcases reduces with rfl | rfl
  · obtain ⟨rfl, fails⟩ := comes (by decide) (call_foldl (e := .int) accepted xs)
    exact ⟨rfl, zero_mem_of_foldArray_eq_none accepted fails⟩
  · obtain ⟨rfl, fails⟩ := comes (by decide) (call_scanl (e := .int) accepted xs)
    rcases scanArray_cases g 0 xs with ⟨-, none⟩ | ⟨x, ys, -, scan, -⟩
    · exact ⟨rfl, zero_mem_of_foldArray_eq_none accepted none⟩
    · cases scan.symm.trans fails

/-- Builtins of integers, in calls on any operands. The integer that a result wraps to is the one
that is congruent modulo `2 ^ 32`. The reductions of an array wrap their exact results, for arrays
of any length; sums and products are the same for all arrangements of an array, of which sorting
gives one. The functions of one or two integers wrap their exact results for all operands, those at
the limits included; division does for all divisors but zero. A call on integers and arrays of
integers, or with an operator and an array of them, has no failure but that it is refused, as of
arrays that differ in length, or that it divides by zero. -/
theorem integers_exact :
    (∀ (n : Int32) (z : Int), n = wrap z ↔ n.toInt ≡ z [ZMOD 2 ^ 32]) ∧
    (∀ xs, ReducesExactly xs) ∧
    (∀ xs ys, xs.Perm ys → ReducesAlike xs ys) ∧
    (∀ xs, ∃ ys, Gives "sort" [ints xs] (.ok (.array .int ys)) ∧ xs.Perm ys ∧
      ys.Pairwise fun x y => x.toInt ≤ y.toInt) ∧
    (∀ entry ∈ wrapped, ∀ n : Int32,
      GivesInt entry.1 [.datum (.scalar .int n)] (wrap (entry.2 n.toInt))) ∧
    (∀ entry ∈ wrapped₂, ∀ n m : Int32,
      GivesInt entry.1 [.datum (.scalar .int n), .datum (.scalar .int m)]
        (wrap (entry.2 n.toInt m.toInt))) ∧
    (∀ n m : Int32, Gives "div" [.datum (.scalar .int n), .datum (.scalar .int m)]
      (if m = 0 then .error .divisionByZero
        else .ok (.scalar .int (wrap (n.toInt.tdiv m.toInt))))) ∧
    (∀ s f w name (ps : List (Operand Int32)) failure s', isBuiltin name = true →
      Calls s f w name (ps.map fun p => .datum (p.datum .int)) →
      callBuiltin f w s = .error failure s' →
      failure = .error (.noMatchingOverload f w) ∧
        Refused name (ps.map fun p => .datum (p.datum .int)) ∨
      failure = .error (.operation .divisionByZero) ∧
        name = "div" ∧ ∃ p q i, ps = [p, q] ∧ q.get? i = some 0) ∧
    ∀ s f w name op xs failure s', (name = "foldl" ∨ name = "scanl") →
      (operator? op .int).isSome → Calls s f w name [.function op, ints xs] →
      callBuiltin f w s = .error failure s' →
      failure = .error (.operation .divisionByZero) ∧ op = "div" ∧ 0 ∈ xs.tail := by
  refine ⟨fun n z => eq_wrap_iff, reducesExactly, fun xs ys => reducesAlike_of_perm, ?_, ?_, ?_, ?_,
    ?_, ?_⟩
  · intro xs
    exact ⟨_, gives_sort xs, (sortInts_perm xs).symm, pairwise_sortInts xs⟩
  · intro entry mem n
    have builtin : ∀ entry ∈ wrapped, isBuiltin entry.1 = true := by decide
    exact gives_of_call (builtin entry mem) (call_wrapped mem n)
  · intro entry mem n m
    have builtin : ∀ entry ∈ wrapped₂, isBuiltin entry.1 = true := by decide
    exact gives_of_call (builtin entry mem) (call_wrapped₂ mem n m)
  · exact fun n m => gives_of_call (by decide) (call_div n m)
  · intro s f w name ps failure s' builtin calls failed
    exact failure_of_ints calls builtin failed
  · intro s f w name op xs failure s' reduces operator calls failed
    exact failure_of_reduction reduces operator calls failed

/-- A sum that overflows on the way and comes back. -/
theorem integers_exact_overflow : ∃ s,
    s = (Source.parse .empty "foldl [add (2147483647 1 -1)]").2 ∧
    ComesTo (callBuiltin (.name 0) (.tuple 0) s) (.ok (.scalar .int 2147483647)) := by
  have wellFormed := (Store.Reachable.empty.parse "foldl [add (2147483647 1 -1)]").wellFormed
  have shape : (fun s : Store => s.bindings = [] ∧ s.names = #["foldl", "add"] ∧
      (s.columns .int).arrays = #[[2147483647, 1, -1]] ∧
      s.tuples = #[.unconnected [.name 1, .array .int 0]])
      (Source.parse .empty "foldl [add (2147483647 1 -1)]").2 := by
    decide +kernel
  refine ⟨_, rfl, ?_⟩
  revert wellFormed shape
  generalize (Source.parse .empty "foldl [add (2147483647 1 -1)]").2 = s
  rintro wellFormed ⟨bindings, names, arrays, tuples⟩
  obtain ⟨-, calls⟩ := calls_of_unbound (f := 0) (i := 0) (e := .int) wellFormed bindings
    (by rw [names]; rfl) (by rw [tuples]; rfl) (by rw [names]; rfl) (by rw [arrays]; rfl)
  obtain ⟨-, reduces, -⟩ := integers_exact
  exact (reduces [2147483647, 1, -1]).foldl_add (by decide) _ _ _ calls

end Tacit.Eval
