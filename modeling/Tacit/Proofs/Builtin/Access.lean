import Mathlib.Data.List.Forall2
import Tacit.Builtin.Call

/-!
What operations read of their arguments. An overload that a candidate selects reads each argument
as the candidate says: what it reads is always of the right kind, and it always has a result or an
error of its own.

* `fits_of_select?`: each argument can be read as the selected overload reads it.
* `exists_apply?_of_select?`: so the overload applies.
-/

namespace Tacit.Builtin

inductive Access where
  | scalar (e : Elem)
  | array (e : Elem)
  /-- The name of a builtin that is an operator on an element type. -/
  | operator (e : Elem)

/-- Whether an argument can be read so. An integer can be read as a double. -/
def Access.Fits : Access → Argument → Prop
  | .scalar e, .datum (.scalar e' _) => e' = e ∨ (e' = .int ∧ e = .double)
  | .array e, .datum (.array e' _) => e' = e
  | .operator e, .function name => (operator? name e).isSome
  | _, _ => False

/-- How an operation on scalars reads an argument: an expanded array as such. -/
def Reading.access (r : Reading) (e : Elem) : Access := if r.expanded then .array e else .scalar e

/-- How an operation reads its arguments, if they are as many as its parameters. -/
def Operation.accesses : Operation → List Reading → List Access
  | .map a _ _, [r] => [r.access a]
  | .zip a _ _, [r, q] => [r.access a, q.access a]
  | .generate a _ _, [_] => [.scalar a]
  | .collapse a _ _, [_] => [.array a]
  | .rearrange a _, [_] => [.array a]
  | .fold a, [_, _] => [.operator a, .array a]
  | .scan a, [_, _] => [.operator a, .array a]
  | _, _ => []

/-! ### Candidates -/

/-- A choice takes an item of each list. -/
theorem forall₂_of_mem_choices {α : Type} {choice : List α} {lists : List (List α)}
    (mem : choice ∈ choices lists) : List.Forall₂ (· ∈ ·) choice lists := by
  induction lists generalizing choice with
  | nil =>
    rw [choices, List.mem_singleton] at mem
    subst mem
    exact .nil
  | cons options later ih =>
    obtain ⟨rest, later, mem⟩ := List.mem_flatMap.mp mem
    obtain ⟨x, first, rfl⟩ := List.mem_map.mp mem
    exact .cons first (ih later)

/-- Any item of each list makes a choice. -/
theorem mem_choices_of_forall₂ {α : Type} {choice : List α} {lists : List (List α)}
    (h : List.Forall₂ (· ∈ ·) choice lists) : choice ∈ choices lists := by
  induction h with
  | nil => exact .head _
  | cons first _ ih => exact List.mem_flatMap.mpr ⟨_, ih, List.mem_map.mpr ⟨_, first, rfl⟩⟩

/-- The first choice takes the first item of each list. -/
theorem choices_eq_cons {α : Type} {choice : List α} {lists : List (List α)}
    (h : List.Forall₂ (fun x options => options.head? = some x) choice lists) :
    ∃ rest, choices lists = choice :: rest := by
  induction h with
  | nil => exact ⟨[], rfl⟩
  | @cons x options _ _ first _ ih =>
    obtain ⟨rest, eq⟩ := ih
    cases options with
    | nil => cases first
    | cons x' more =>
      cases first
      rw [choices, eq, List.flatMap_cons]
      exact ⟨_, rfl⟩

/-- A candidate reads each argument in one of its ways. -/
theorem forall₂_of_mem_candidates {args : List Argument} {candidate : List Reading}
    (mem : candidate ∈ candidates args) :
    List.Forall₂ (fun r x => r ∈ x.readings) candidate args :=
  List.forall₂_map_right_iff.mp (forall₂_of_mem_choices mem)

/-- The ways in which an argument is read. -/
theorem reading_cases {x : Argument} {r : Reading} (mem : r ∈ x.readings) :
    (∃ e e' v, x = .datum (.scalar e' v) ∧ r = .exact (.scalar e) ∧
      (e' = e ∨ (e' = .int ∧ e = .double))) ∨
    (∃ e v, x = .datum (.array e v) ∧ (r = .exact (.array e) ∨ r = .elements e)) ∨
    (∃ name o, x = .function name ∧ o ∈ overloads name ∧
      r = .exact (.ofSignature o.signature)) := by
  cases x with
  | datum d =>
    cases d with
    | scalar e v =>
      cases e with
      | int =>
        simp only [Argument.readings, List.mem_cons, List.not_mem_nil, or_false] at mem
        rcases mem with rfl | rfl
        · exact .inl ⟨.int, .int, v, rfl, rfl, .inl rfl⟩
        · exact .inl ⟨.double, .int, v, rfl, rfl, .inr ⟨rfl, rfl⟩⟩
      | double =>
        simp only [Argument.readings, List.mem_singleton] at mem
        exact .inl ⟨.double, .double, v, rfl, mem, .inl rfl⟩
      | bool =>
        simp only [Argument.readings, List.mem_singleton] at mem
        exact .inl ⟨.bool, .bool, v, rfl, mem, .inl rfl⟩
    | array e v =>
      simp only [Argument.readings, List.mem_cons, List.not_mem_nil, or_false] at mem
      exact .inr (.inl ⟨e, v, rfl, mem⟩)
  | function name =>
    obtain ⟨o, mem, eq⟩ := List.mem_map.mp mem
    exact .inr (.inr ⟨name, o, rfl, mem, eq.symm⟩)
  | other => cases mem

/-- An array is read as what it is, or as its elements. -/
theorem mem_readings_array {e : Elem} {xs : List e.Carrier} {r : Reading} :
    r ∈ (Argument.datum (.array e xs)).readings ↔ r = .exact (.array e) ∨ r = .elements e := by
  simp [Argument.readings]

/-- An operation with the signature of an operator is one. -/
theorem operator?_isSome_of_signature {op : Operation} {e : Elem}
    (h : op.signature = Operation.operatorSignature e) : (op.operator? e).isSome := by
  cases op with
  | zip a r f =>
    simp only [Operation.signature, Operation.operatorSignature, Signature.mk.injEq,
      List.cons.injEq, ArgType.scalar.injEq] at h
    obtain ⟨⟨rfl, -⟩, rfl⟩ := h
    cases r <;> rfl
  | _ => simp [Operation.signature, Operation.operatorSignature, ArgType.ofSignature] at h

/-- A name with an overload of the type of an operator stands for an operator. -/
theorem operator?_isSome_of_mem {name : String} {o : Overload} {e : Elem}
    (mem : o ∈ overloads name) (h : o.signature = Operation.operatorSignature e) :
    (operator? name e).isSome := by
  have some : (findSignature? name (Operation.operatorSignature e)).isSome := by
    rw [findSignature?, List.find?_isSome]
    exact ⟨o, mem, decide_eq_true h⟩
  obtain ⟨o', found⟩ := Option.isSome_iff_exists.mp some
  have signature : o'.signature = Operation.operatorSignature e := by
    rw [findSignature?] at found
    simpa using List.find?_some found
  rw [operator?, found]
  exact operator?_isSome_of_signature signature

section Readings

variable {x : Argument} {r : Reading} {e : Elem} (mem : r ∈ x.readings)

include mem

/-- What is read as a scalar can be accessed as one, or element by element. -/
theorem fits_of_scalar (type : r.type = .scalar e) : (r.access e).Fits x := by
  rcases reading_cases mem with ⟨_, _, v, rfl, rfl, same⟩ | ⟨_, v, rfl, rfl | rfl⟩ |
    ⟨name, o, rfl, -, rfl⟩
  · cases type
    exact same
  · cases type
  · cases type
    rfl
  · cases type

/-- Only an array is read as an array, and as what it is. -/
theorem exists_array_of_type (type : r.type = .array e) :
    ∃ xs, x = .datum (.array e xs) ∧ r = .exact (.array e) := by
  rcases reading_cases mem with ⟨_, _, v, rfl, rfl, -⟩ | ⟨_, v, rfl, rfl | rfl⟩ |
    ⟨name, o, rfl, -, rfl⟩
  · cases type
  · cases type
    exact ⟨v, rfl, rfl⟩
  · cases type
  · cases type

theorem fits_of_array (type : r.type = .array e) : (Access.array e).Fits x := by
  obtain ⟨xs, rfl, -⟩ := exists_array_of_type mem type
  rfl

/-- Only the name of a function is read as a function. -/
theorem exists_function_of_type {params : List ArgType} {result : ArgType}
    (type : r.type = .function params result) :
    ∃ name, x = .function name ∧ r = .exact (.function params result) := by
  rcases reading_cases mem with ⟨_, _, v, rfl, rfl, -⟩ | ⟨_, v, rfl, rfl | rfl⟩ |
    ⟨name, o, rfl, -, rfl⟩
  · cases type
  · cases type
  · cases type
  · cases type
    exact ⟨name, rfl, rfl⟩

theorem fits_of_operator (type : r.type = .ofSignature (Operation.operatorSignature e)) :
    (Access.operator e).Fits x := by
  rcases reading_cases mem with ⟨_, _, v, rfl, rfl, -⟩ | ⟨_, v, rfl, rfl | rfl⟩ |
    ⟨name, o, rfl, listed, rfl⟩
  · cases type
  · cases type
  · cases type
  · refine operator?_isSome_of_mem listed ?_
    obtain ⟨params, result⟩ := ArgType.function.inj type
    exact congr (congrArg Signature.mk params) result

end Readings

/-! ### Selected overloads -/

theorem of_find?_eq_some {name : String} {params : List ArgType} {o : Overload}
    (found : find? name params = some o) : o ∈ overloads name ∧ o.signature.params = params := by
  rw [find?] at found
  exact ⟨List.mem_of_find?_eq_some found, by simpa using List.find?_some found⟩

/-- What is selected is found by the types of the readings, and one that expands an array gives a
scalar. -/
theorem find?_of_select? {name : String} {candidate : List Reading} {o : Overload}
    (h : select? name candidate = some o) :
    find? name (candidate.map Reading.type) = some o ∧
      (candidate.any Reading.expanded = true → o.signature.result.isScalar = true) := by
  rw [select?] at h
  cases found : find? name (candidate.map Reading.type) with
  | none =>
    rw [found] at h
    cases h
  | some o' =>
    rw [found] at h
    change (if _ then none else some o') = some o at h
    split at h
    · cases h
    · next kept =>
      cases h
      refine ⟨rfl, fun expanded => ?_⟩
      rw [expanded] at kept
      simpa using kept

/-- The parameters of what is selected are the types of the readings. -/
theorem select?_eq_some {name : String} {candidate : List Reading} {o : Overload}
    (h : select? name candidate = some o) :
    o.signature.params = candidate.map Reading.type ∧
      (candidate.any Reading.expanded = true → o.signature.result.isScalar = true) := by
  obtain ⟨found, unexpanded⟩ := find?_of_select? h
  exact ⟨(of_find?_eq_some found).2, unexpanded⟩

/-- An overload of one parameter is selected for one argument, which is read as that type. -/
theorem one_reading {t : ArgType} {candidate : List Reading} {args : List Argument}
    (params : [t] = candidate.map Reading.type)
    (readings : List.Forall₂ (fun r x => r ∈ x.readings) candidate args) :
    ∃ r x, candidate = [r] ∧ args = [x] ∧ r ∈ x.readings ∧ r.type = t := by
  obtain ⟨r, rest, rfl, type, eq⟩ := List.map_eq_cons_iff.mp params.symm
  obtain rfl := List.map_eq_nil_iff.mp eq
  cases readings with
  | cons first rest =>
    cases rest
    exact ⟨r, _, rfl, rfl, first, type⟩

/-- An overload of two parameters is selected for two arguments, each read as its type. -/
theorem two_readings {t u : ArgType} {candidate : List Reading} {args : List Argument}
    (params : [t, u] = candidate.map Reading.type)
    (readings : List.Forall₂ (fun r x => r ∈ x.readings) candidate args) :
    ∃ r q x y, candidate = [r, q] ∧ args = [x, y] ∧ (r ∈ x.readings ∧ r.type = t) ∧
      q ∈ y.readings ∧ q.type = u := by
  obtain ⟨r, rest, rfl, type, eq⟩ := List.map_eq_cons_iff.mp params.symm
  cases readings with
  | cons first rest =>
    obtain ⟨q, y, rfl, rfl, second, type'⟩ := one_reading eq.symm rest
    exact ⟨r, q, _, y, rfl, rfl, ⟨first, type⟩, second, type'⟩

/-- The arguments of a selected overload can be read as it reads them. -/
theorem fits_of_select? {name : String} {args : List Argument} {candidate : List Reading}
    {o : Overload} (mem : candidate ∈ candidates args) (h : select? name candidate = some o) :
    List.Forall₂ Access.Fits (o.operation.accesses candidate) args := by
  obtain ⟨params, unexpanded⟩ := select?_eq_some h
  have readings := forall₂_of_mem_candidates mem
  rw [Overload.signature] at params unexpanded
  generalize o.operation = op at params unexpanded ⊢
  cases op with
  | map =>
    obtain ⟨r, x, rfl, rfl, first, type⟩ := one_reading params readings
    exact .cons (fits_of_scalar first type) .nil
  | zip =>
    obtain ⟨r, q, x, y, rfl, rfl, ⟨first, type⟩, second, type'⟩ := two_readings params readings
    exact .cons (fits_of_scalar first type) (.cons (fits_of_scalar second type') .nil)
  | generate =>
    obtain ⟨r, x, rfl, rfl, first, type⟩ := one_reading params readings
    -- The result is an array, so the overload was not selected for expanded arguments.
    have exact : r.expanded = false := by
      cases expanded : r.expanded with
      | false => rfl
      | true => nomatch unexpanded (by simp [expanded])
    have fits := fits_of_scalar first type
    rw [Reading.access, exact] at fits
    exact .cons fits .nil
  | collapse | rearrange =>
    obtain ⟨r, x, rfl, rfl, first, type⟩ := one_reading params readings
    exact .cons (fits_of_array first type) .nil
  | fold | scan =>
    obtain ⟨r, q, x, y, rfl, rfl, ⟨first, type⟩, second, type'⟩ := two_readings params readings
    exact .cons (fits_of_operator first type) (.cons (fits_of_array second type') .nil)

/-! ### Application -/

section Fits

variable {x : Argument} {e : Elem}

theorem operand?_of_fits_scalar (h : (Access.scalar e).Fits x) :
    ∃ v, x.operand? e = some (.one v) := by
  cases x with
  | datum d =>
    cases d with
    | scalar e' v =>
      rcases h with rfl | ⟨rfl, rfl⟩
      · cases e' <;> exact ⟨v, rfl⟩
      · exact ⟨_, rfl⟩
    | array => exact absurd h id
  | function | other => exact absurd h id

theorem array?_of_fits (h : (Access.array e).Fits x) :
    ∃ xs, x.array? e = some xs ∧ x.operand? e = some (.many xs) := by
  cases x with
  | datum d =>
    cases d with
    | scalar => exact absurd h id
    | array e' xs =>
      obtain rfl : e' = e := h
      cases e' <;> exact ⟨xs, rfl, rfl⟩
  | function | other => exact absurd h id

/-- An argument that fits its access is an operand, be it a scalar or an array. -/
theorem operand?_of_fits {r : Reading} (h : (r.access e).Fits x) : ∃ o, x.operand? e = some o := by
  rw [Reading.access] at h
  split at h
  · obtain ⟨xs, -, eq⟩ := array?_of_fits h
    exact ⟨_, eq⟩
  · obtain ⟨v, eq⟩ := operand?_of_fits_scalar h
    exact ⟨_, eq⟩

/-- A function that fits as an operator gives one. -/
theorem operator?_of_fits (h : (Access.operator e).Fits x) : ∃ f, x.operator? e = some f := by
  cases x with
  | datum | other => exact absurd h id
  | function name => exact Option.isSome_iff_exists.mp h

end Fits

/-- A selected overload applies: it gives a result or an error of its own. -/
theorem exists_apply?_of_select? {name : String} {args : List Argument}
    {candidate : List Reading} {o : Overload} (mem : candidate ∈ candidates args)
    (h : select? name candidate = some o) :
    ∃ result, o.operation.apply? args = some result := by
  have fits := fits_of_select? mem h
  have readings := forall₂_of_mem_candidates mem
  obtain ⟨params, -⟩ := select?_eq_some h
  rw [Overload.signature] at params
  generalize o.operation = op at params fits ⊢
  cases op with
  | map =>
    obtain ⟨r, x, rfl, rfl, -⟩ := one_reading params readings
    obtain ⟨v, eq⟩ := operand?_of_fits (List.forall₂_cons.mp fits).1
    simp [eq, Operation.apply?]
  | zip =>
    obtain ⟨r, q, x, y, rfl, rfl, -⟩ := two_readings params readings
    obtain ⟨first, rest⟩ := List.forall₂_cons.mp fits
    obtain ⟨v, eq⟩ := operand?_of_fits first
    obtain ⟨u, eq'⟩ := operand?_of_fits (List.forall₂_cons.mp rest).1
    simp [eq, eq', Operation.apply?]
  | generate =>
    obtain ⟨r, x, rfl, rfl, -⟩ := one_reading params readings
    obtain ⟨v, eq⟩ := operand?_of_fits_scalar (List.forall₂_cons.mp fits).1
    simp [eq, Operation.apply?]
  | collapse | rearrange =>
    obtain ⟨r, x, rfl, rfl, -⟩ := one_reading params readings
    obtain ⟨xs, eq, -⟩ := array?_of_fits (List.forall₂_cons.mp fits).1
    simp [eq, Operation.apply?]
  | fold | scan =>
    obtain ⟨r, q, x, y, rfl, rfl, -⟩ := two_readings params readings
    obtain ⟨first, rest⟩ := List.forall₂_cons.mp fits
    obtain ⟨f, eq⟩ := operator?_of_fits first
    obtain ⟨xs, eq', -⟩ := array?_of_fits (List.forall₂_cons.mp rest).1
    simp [eq, eq', Operation.apply?]

end Tacit.Builtin
