import Mathlib.Data.Int.ModEq
import Tacit.Proofs.Builtin.Folds

/-!
Integers that wrap. Addition, subtraction and multiplication wrap at every step of a loop, which
comes to the same as wrapping the exact result once at the end. Division is the one operation on
integers that is not defined for all operands.

* `eq_wrap_iff`: what an integer wraps to is the one 32-bit integer congruent to it.
* `foldl_wrap`: a loop that wraps at every step wraps its exact result.
* `foldArray_add`, `foldArray_mul`, `foldArray_sub`, `exists_scanArray_add`: so do folds and scans.
* `always_or_divide`: of all overloads, one alone is not defined for all operands.
* `exists_zero_of_apply?_eq_error`, `zero_mem_of_foldArray_eq_none`: it fails for a zero divisor.
* `call_wrapped`, `call_wrapped₂`, `call_div`: what the builtins of integers give.
-/

namespace Tacit.Builtin

/-! ### Wrapping -/

def wrap (z : Int) : Int32 := .ofInt z

/-- To wrap an integer is to take the 32-bit integer that is congruent to it. -/
theorem eq_wrap_iff {n : Int32} {z : Int} : n = wrap z ↔ n.toInt ≡ z [ZMOD 2 ^ 32] := by
  rw [wrap, eq_comm, Int32.ofInt_eq_iff_bmod_eq_toInt]
  unfold Int.ModEq
  constructor
  · intro eq
    rw [← eq]
    exact Int.bmod_emod
  · intro congruent
    have low := n.le_toInt
    have high := n.toInt_lt
    simp only [Int.bmod_def]
    split <;> omega

/-- A 32-bit integer is not changed by wrapping. -/
@[simp]
theorem wrap_toInt (n : Int32) : wrap n.toInt = n := Int32.ofInt_toInt n

abbrev exact (xs : List Int32) : List Int := xs.map Int32.toInt

section Loops

variable {f : Int32 → Int32 → Int32} {F : Int → Int → Int}

/-- Wrapping at every step of a loop is wrapping once, at its end. -/
theorem foldl_wrap (step : ∀ z x, f (wrap z) x = wrap (F z x.toInt)) (xs : List Int32) (z : Int) :
    xs.foldl f (wrap z) = wrap ((exact xs).foldl F z) := by
  induction xs generalizing z with
  | nil => rfl
  | cons x xs ih => simp [step, ih]

/-- A fold whose steps wrap gives the exact fold, wrapped once at the end. -/
theorem foldArray_wrap (step : ∀ z x, f (wrap z) x = wrap (F z x.toInt)) (zero x : Int32)
    (xs : List Int32) : foldArray (fun y x => some (f y x)) zero (x :: xs) =
      some (wrap ((exact xs).foldl F x.toInt)) := by
  rw [← foldl_wrap step, wrap_toInt]
  exact List.foldlM_pure

end Loops

theorem wrap_add_step (z : Int) (x : Int32) : wrap z + x = wrap (z + x.toInt) := by
  simp [wrap, Int32.ofInt_add]

theorem wrap_sub_step (z : Int) (x : Int32) : wrap z - x = wrap (z - x.toInt) := by
  simp [wrap, Int32.ofInt_sub]

theorem wrap_mul_step (z : Int) (x : Int32) : wrap z * x = wrap (z * x.toInt) := by
  simp [wrap, Int32.ofInt_mul]

/-! ### Exact results -/

theorem foldl_add_eq (z : Int) (zs : List Int) : zs.foldl (· + ·) z = z + zs.sum := by
  induction zs generalizing z with
  | nil => simp
  | cons y zs ih => simp [ih, Int.add_assoc]

theorem foldl_sub_eq (z : Int) (zs : List Int) : zs.foldl (· - ·) z = z - zs.sum := by
  induction zs generalizing z with
  | nil => simp
  | cons y zs ih => simp [ih]; omega

theorem foldl_mul_eq (z : Int) (zs : List Int) : zs.foldl (· * ·) z = z * zs.prod := by
  induction zs generalizing z with
  | nil => simp
  | cons y zs ih => simp [ih, Int.mul_assoc]

/-- The sum is the exact sum, wrapped once. -/
theorem sumInts_eq_wrap (xs : List Int32) : sumInts xs = wrap (exact xs).sum := by
  have start : (0 : Int32) = wrap 0 := rfl
  rw [sumInts, start, foldl_wrap wrap_add_step, foldl_add_eq, Int.zero_add]

section Folds

variable (zero : Int32) {xs : List Int32} (nonempty : xs ≠ [])

include nonempty

/-- The fold by addition is the exact sum, wrapped once. -/
theorem foldArray_add :
    foldArray (fun y x => some (y + x)) zero xs = some (wrap (exact xs).sum) := by
  cases xs with
  | nil => exact absurd rfl nonempty
  | cons x xs => rw [foldArray_wrap wrap_add_step, foldl_add_eq]; simp

/-- The fold by multiplication is the exact product, wrapped once. -/
theorem foldArray_mul :
    foldArray (fun y x => some (y * x)) zero xs = some (wrap (exact xs).prod) := by
  cases xs with
  | nil => exact absurd rfl nonempty
  | cons x xs => rw [foldArray_wrap wrap_mul_step, foldl_mul_eq]; simp

end Folds

/-- The fold by subtraction takes the exact sum of the later items from the first one. -/
theorem foldArray_sub (zero x : Int32) (xs : List Int32) :
    foldArray (fun y x => some (y - x)) zero (x :: xs) =
      some (wrap (x.toInt - (exact xs).sum)) := by
  rw [foldArray_wrap wrap_sub_step, foldl_sub_eq]

/-- The sums of all beginnings. -/
theorem exists_scanArray_add (xs : List Int32) :
    ∃ ys, scanArray (fun y x => some (y + x)) xs = some ys ∧ ys.length = xs.length ∧
      ∀ i < xs.length, ys[i]? = some (wrap (exact (xs.take (i + 1))).sum) := by
  have beginning : ∀ i < xs.length, xs.take (i + 1) ≠ [] := by
    intro i lt
    simp [List.ne_nil_of_length_pos (Nat.zero_lt_of_lt lt)]
  rcases scanArray_cases (fun y x => some (y + x)) 0 xs with
    ⟨-, fails⟩ | ⟨x, ys, -, scan, length, each⟩
  · cases xs with
    | nil => cases fails
    | cons x xs => cases (foldArray_add 0 (List.cons_ne_nil x xs)).symm.trans fails
  · refine ⟨ys, scan, length, fun i lt => ?_⟩
    rw [each i lt, foldArray_add 0 (beginning i lt)]

/-! ### Failures -/

/-- The operation is defined for all scalars of its type, as far as it is one on scalars. -/
def Operation.Always : Operation → Prop
  | .zip _ _ f => ∀ x y, f x y ≠ none
  | _ => True

/-- Among all overloads, the division of integers alone is not defined for all operands. -/
theorem always_or_divide :
    ∀ o ∈ table, o.operation.Always ∨ o = ⟨"div", .zip .int .int divide⟩ := by
  rw [table]
  repeat' refine List.forall_mem_cons.mpr ⟨?_, ?_⟩
  case refine_2 => exact List.forall_mem_nil _
  all_goals first | exact .inl trivial | exact .inr rfl | exact .inl fun _ _ => Option.some_ne_none _

theorem mem_table_of_mem_overloads {name : String} {o : Overload} (mem : o ∈ overloads name) :
    o ∈ table ∧ o.name = name := by
  simpa [overloads] using mem

/-- An integer operator is defined for all operands, or it is division. -/
theorem always_or_divide_of_operator? {op : String} {g : Int32 → Int32 → Option Int32}
    (accepted : operator? op .int = some g) :
    (∀ x y, g x y ≠ none) ∨ op = "div" ∧ g = divide := by
  obtain ⟨o, mem, -, operation⟩ := exists_overload_of_operator? accepted
  obtain ⟨listed, rfl⟩ := mem_table_of_mem_overloads mem
  rcases always_or_divide o listed with always | rfl
  · rw [operation] at always
    exact .inl always
  · cases operation
    exact .inr ⟨rfl, rfl⟩

/-- Operands that are matched pair by pair without a result have a pair without one. -/
theorem exists_of_zip_eq_error {α β : Type} {f : α → α → Option β} {p q : Operand α}
    (fails : Operand.zip f p q = .error .divisionByZero) :
    ∃ i x y, p.get? i = some x ∧ q.get? i = some y ∧ f x y = none := by
  by_cases many : (p.isMany || q.isMany) = true
  · rcases Operand.zip_cases f many with ⟨pairs, paired, eq⟩ | ⟨left, right, eq, -⟩
    · rcases mapM_cases (fun pair => f pair.1 pair.2) pairs with
        ⟨zs, all, -⟩ | ⟨-, ⟨x, y⟩, mem, none⟩
      · rw [eq, all] at fails
        cases fails
      · obtain ⟨i, found⟩ := List.mem_iff_getElem?.mp mem
        obtain ⟨left, right⟩ := paired.get?_eq_some found
        exact ⟨i, x, y, left, right, none⟩
    · cases eq.symm.trans fails
  · cases p with
    | many => simp [Operand.isMany] at many
    | one x =>
      cases q with
      | many => simp [Operand.isMany] at many
      | one y =>
        refine ⟨0, x, y, rfl, rfl, ?_⟩
        cases result : f x y with
        | none => rfl
        | some z =>
          rw [Operand.zip, result] at fails
          cases fails

/-- An operation fails for a pair of operands, unless it takes a function. -/
theorem exists_of_apply?_eq_error {op : Operation} {args : List Argument}
    (data : ∀ x ∈ args, ∃ d, x = .datum d)
    (fails : op.apply? args = some (.error .divisionByZero)) :
    ∃ a r f x y p q, op = .zip a r f ∧ args = [x, y] ∧ x.operand? a = some p ∧
      y.operand? a = some q ∧ Operand.zip f p q = .error .divisionByZero := by
  have no_operator {x : Argument} (mem : x ∈ args) (e : Elem) : x.operator? e = none := by
    obtain ⟨d, rfl⟩ := data x mem
    rfl
  unfold Operation.apply? at fails
  split at fails
  case h_2 a r f x y =>
    obtain ⟨p, left, fails⟩ := Option.bind_eq_some_iff.mp fails
    obtain ⟨q, right, fails⟩ := Option.bind_eq_some_iff.mp fails
    refine ⟨a, r, f, x, y, p, q, rfl, rfl, left, right, ?_⟩
    cases eq : Operand.zip f p q with
    | ok => simp [eq, Except.map] at fails
    | error e => simpa [eq, Except.map] using fails
  case h_6 | h_7 => simp [no_operator (.head _)] at fails
  case h_1 | h_3 | h_4 | h_5 =>
    obtain ⟨_, -, fails⟩ := Option.bind_eq_some_iff.mp fails
    first | cases fails | (split at fails <;> cases fails)
  case h_8 => cases fails

theorem operand?_datum {e : Elem} (p : Operand e.Carrier) :
    (Argument.datum (p.datum e)).operand? e = some p := by
  cases e <;> cases p <;> rfl

/-- Of the overloads that take integers and arrays of integers, division alone can fail, and it
fails for an item of the divisor that is zero. -/
theorem exists_zero_of_apply?_eq_error {name : String} {o : Overload} (mem : o ∈ overloads name)
    {ps : List (Operand Int32)}
    (fails : o.operation.apply? (ps.map fun p => .datum (p.datum .int)) =
      some (.error .divisionByZero)) :
    name = "div" ∧ ∃ p q i, ps = [p, q] ∧ q.get? i = some 0 := by
  obtain ⟨a, r, f, x, y, p, q, operation, args, left, right, fails⟩ :=
    exists_of_apply?_eq_error (by simp) fails
  obtain ⟨i, u, v, -, found, undefined⟩ := exists_of_zip_eq_error fails
  obtain ⟨listed, rfl⟩ := mem_table_of_mem_overloads mem
  rcases always_or_divide o listed with always | rfl
  · rw [operation] at always
    exact absurd undefined (always u v)
  · cases operation
    obtain ⟨p', later, rfl, rfl, second⟩ := List.map_eq_cons_iff.mp args
    obtain ⟨q', none, rfl, rfl, third⟩ := List.map_eq_cons_iff.mp second
    obtain rfl := List.map_eq_nil_iff.mp third
    obtain rfl : q' = q := Option.some.inj ((operand?_datum (e := .int) q').symm.trans right)
    obtain rfl := divide_eq_none_iff.mp undefined
    exact ⟨rfl, p', q', i, rfl, found⟩

/-- A fold fails at an item behind the first. -/
theorem exists_of_foldArray_eq_none {α : Type} {g : α → α → Option α} {zero : α} {xs : List α}
    (fails : foldArray g zero xs = none) : ∃ y, ∃ x ∈ xs.tail, g y x = none := by
  cases xs with
  | nil => cases fails
  | cons first xs =>
    change xs.foldlM g first = none at fails
    induction xs generalizing first with
    | nil => cases fails
    | cons x xs ih =>
      rw [List.foldlM_cons] at fails
      cases step : g first x with
      | none => exact ⟨first, x, .head _, step⟩
      | some next =>
        rw [step] at fails
        obtain ⟨y, x', mem, undefined⟩ := ih next fails
        exact ⟨y, x', .tail _ mem, undefined⟩

/-- A fold of integers fails only for division, and only for a zero behind the first item. -/
theorem zero_mem_of_foldArray_eq_none {op : String} {g : Int32 → Int32 → Option Int32}
    (accepted : operator? op .int = some g) {zero : Int32} {xs : List Int32}
    (fails : foldArray g zero xs = none) : op = "div" ∧ 0 ∈ xs.tail := by
  obtain ⟨y, x, mem, undefined⟩ := exists_of_foldArray_eq_none fails
  rcases always_or_divide_of_operator? accepted with always | ⟨rfl, rfl⟩
  · exact absurd undefined (always y x)
  · obtain rfl := divide_eq_none_iff.mp undefined
    exact ⟨rfl, mem⟩

/-! ### Functions of integers -/

/-- Sorting rearranges an array. -/
theorem sortInts_perm (xs : List Int32) : (sortInts xs).Perm xs := List.mergeSort_perm xs _

/-- A sorted array goes up. -/
theorem pairwise_sortInts (xs : List Int32) :
    (sortInts xs).Pairwise fun x y => x.toInt ≤ y.toInt := by
  simp only [sortInts, Int32.le_iff_toInt_le]
  refine (List.pairwise_mergeSort ?_ ?_ xs).imp of_decide_eq_true
  · simp only [decide_eq_true_eq]
    omega
  · simp only [Bool.or_eq_true, decide_eq_true_eq]
    omega

/-- The builtins of one integer, with the functions that they wrap. -/
def wrapped : List (String × (Int → Int)) := [
  ("inc", (· + 1)), ("dec", (· - 1)), ("neg", (-·)), ("abs", (|·|))]

/-- The builtins of two integers, with the functions that they wrap. -/
def wrapped₂ : List (String × (Int → Int → Int)) := [
  ("add", (· + ·)), ("sub", (· - ·)), ("mul", (· * ·))]

theorem abs_eq_ite (n : Int32) : n.abs = if n.toInt < 0 then -n else n := by
  apply Int32.toBitVec_inj.mp
  rw [Int32.toBitVec_abs, BitVec.abs_eq, BitVec.msb_eq_toInt, Int32.toInt_toBitVec]
  by_cases negative : n.toInt < 0 <;> simp [negative]

/-- The absolute value wraps for the least integer, which has no counterpart. -/
theorem abs_eq_wrap (n : Int32) : n.abs = wrap |n.toInt| := by
  rw [abs_eq_ite]
  by_cases negative : n.toInt < 0
  · simp [wrap, negative, abs_of_neg, Int32.ofInt_neg]
  · simp [negative, abs_of_nonneg (Int.not_lt.mp negative)]

/-- Division truncates, and wraps for the least integer and minus one. -/
theorem divide_eq_wrap {x y : Int32} (nonzero : y ≠ 0) :
    divide x y = some (wrap (x.toInt.tdiv y.toInt)) := by
  rw [divide, if_neg nonzero, Option.some_inj, eq_wrap_iff, Int32.toInt_div]
  exact Int.bmod_emod

/-- The builtins of one integer wrap what their functions give. -/
theorem call_wrapped {entry : String × (Int → Int)} (mem : entry ∈ wrapped) (n : Int32) :
    call entry.1 [.datum (.scalar .int n)] =
      some (.ok (.scalar .int (wrap (entry.2 n.toInt)))) := by
  simp only [wrapped, List.mem_cons, List.not_mem_nil, or_false] at mem
  rcases mem with rfl | rfl | rfl | rfl
  · rw [call_map (e := .int) (r := .int) (f := (· + 1)) rfl]
    simp [wrap, Int32.ofInt_add]
  · rw [call_map (e := .int) (r := .int) (f := (· - 1)) rfl]
    simp [wrap, Int32.ofInt_sub]
  · rw [call_map (e := .int) (r := .int) (f := (-·)) rfl]
    simp [wrap, Int32.ofInt_neg]
  · rw [call_map (e := .int) (r := .int) (f := Int32.abs) rfl, abs_eq_wrap]

/-- The builtins of two integers wrap what their functions give. -/
theorem call_wrapped₂ {entry : String × (Int → Int → Int)} (mem : entry ∈ wrapped₂)
    (n m : Int32) : call entry.1 [.datum (.scalar .int n), .datum (.scalar .int m)] =
      some (.ok (.scalar .int (wrap (entry.2 n.toInt m.toInt)))) := by
  simp only [wrapped₂, List.mem_cons, List.not_mem_nil, or_false] at mem
  rcases mem with rfl | rfl | rfl
  · rw [call_operator (e := .int) (g := fun y x => some (y + x)) rfl, ← wrap_add_step, wrap_toInt]
    rfl
  · rw [call_operator (e := .int) (g := fun y x => some (y - x)) rfl, ← wrap_sub_step, wrap_toInt]
    rfl
  · rw [call_operator (e := .int) (g := fun y x => some (y * x)) rfl, ← wrap_mul_step, wrap_toInt]
    rfl

/-- Division of two integers fails for a zero divisor, and else wraps the truncated quotient. -/
theorem call_div (n m : Int32) :
    call "div" [.datum (.scalar .int n), .datum (.scalar .int m)] =
      some (if m = 0 then .error .divisionByZero
        else .ok (.scalar .int (wrap (n.toInt.tdiv m.toInt)))) := by
  rw [call_operator (e := .int) (g := divide) rfl]
  by_cases zero : m = 0
  · rw [if_pos zero, divide_eq_none_iff.mpr zero]
    rfl
  · rw [if_neg zero, divide_eq_wrap zero]
    rfl

end Tacit.Builtin
