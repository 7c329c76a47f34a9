import Tacit.Proofs.Builtin.Candidates
import Tacit.Proofs.Builtin.Elementwise

/-!
Dispatch of the builtins that are overloaded on scalars alone. Their candidates compete only where
all arguments are integers, which can be read as doubles; in all other calls the arguments tell
which overload it is.

* `call_of_takes`: the overload for the element type of the arguments settles the call.
* `call_elementwise`: a call on arrays is told by the calls on the slices.
-/

namespace Tacit.Builtin

/-- A builtin that is overloaded on scalars, with scalars as results. No operation has more than
two parameters. -/
def onScalars (name : String) : Bool :=
  isBuiltin name && (overloads name).all fun o =>
    o.signature.params.all ArgType.isScalar && o.signature.result.isScalar

/-- An overload of a name is for an element type, and all arguments are operands of that type. -/
structure Takes (name : String) (args : List Argument) (e : Elem) (o : Overload) : Prop where
  found : find? name (args.map fun _ => .scalar e) = some o
  operands : ∀ x ∈ args, ∃ p, x.operand? e = some p

/-- What ends the search for a candidate. Arrays of different lengths do not. -/
def settled : Except OperationError Datum → Option (Except OperationError Datum)
  | .error (.lengthMismatch _ _) => none
  | outcome => some outcome

variable {name : String} {args : List Argument} {e : Elem} {o : Overload}
  {outcome : Except OperationError Datum}

/-- Whatever is no difference in length ends the search. -/
theorem settled_eq_some (h : ∀ left right, outcome ≠ .error (.lengthMismatch left right)) :
    settled outcome = some outcome := by
  rcases outcome with (⟨left, right⟩ | _) | _
  · exact absurd rfl (h left right)
  · rfl
  · rfl

/-- A candidate that selects an overload is tried by applying its operation. -/
theorem attempt_eq_settled {candidate : List Reading} (selected : select? name candidate = some o)
    (applied : o.operation.apply? args = some outcome) :
    attempt name args candidate = settled outcome := by
  rw [attempt, selected]
  simp only [Option.bind_eq_bind, Option.bind_some, applied]
  rcases outcome with (_ | _) | _ <;> rfl

/-- A candidate that selects no overload is passed over. -/
theorem attempt_eq_none {candidate : List Reading} (unselected : select? name candidate = none) :
    attempt name args candidate = none := by
  rw [attempt, unselected]
  rfl

/-- A call fails if no candidate selects an overload. -/
theorem call_eq_none (unselected : ∀ c ∈ candidates args, select? name c = none) :
    call name args = none := by
  rw [call_eq]
  split
  · exact List.findSome?_eq_none_iff.mpr fun c mem => attempt_eq_none (unselected c mem)
  · rfl

/-! ### Overloads -/

theorem le_foldl_max {α : Type} (f : α → Nat) (xs : List α) (n : Nat) :
    n ≤ xs.foldl (fun m x => max m (f x)) n ∧
      ∀ x ∈ xs, f x ≤ xs.foldl (fun m x => max m (f x)) n := by
  induction xs generalizing n with
  | nil => exact ⟨Nat.le_refl n, nofun⟩
  | cons first rest ih =>
    obtain ⟨start, each⟩ := ih (max n (f first))
    exact ⟨Nat.le_trans (Nat.le_max_left ..) start,
      List.forall_mem_cons.mpr ⟨Nat.le_trans (Nat.le_max_right ..) start, each⟩⟩

/-- No overload of a name has more parameters than the name allows for. -/
theorem length_params_le_maxArity (mem : o ∈ overloads name) :
    o.signature.params.length ≤ maxArity name :=
  (le_foldl_max (fun o => o.signature.params.length) (overloads name) 0).2 o mem

section OnScalars

variable (scalars : onScalars name = true)

include scalars

/-- A name that works on scalars only has overloads at all. -/
theorem isBuiltin_of_onScalars : isBuiltin name = true :=
  (Bool.and_eq_true_iff.mp scalars).1

/-- The overloads of such a builtin each have one element type for all their parameters. -/
theorem exists_elem_of_onScalars (mem : o ∈ overloads name) :
    o.signature.result.isScalar = true ∧ ∃ e, ∀ t ∈ o.signature.params, t = .scalar e := by
  have each := List.all_eq_true.mp (Bool.and_eq_true_iff.mp scalars).2 o mem
  obtain ⟨params, result⟩ := Bool.and_eq_true_iff.mp each
  refine ⟨result, ?_⟩
  rw [Overload.signature] at params ⊢
  generalize o.operation = op at params
  cases op with
  | map a | zip a => exact ⟨a, by simp [Operation.signature]⟩
  | generate a => exact ⟨a, by simp [Operation.signature]⟩
  | _ => cases params

end OnScalars

/-! ### Candidates -/

namespace Argument

variable {x : Argument} {p : Operand e.Carrier}

/-- How an operand of an element type is read. -/
def readingAs (e : Elem) : Argument → Reading
  | .datum (.array _ _) => .elements e
  | _ => .exact (.scalar e)

theorem type_readingAs (x : Argument) (e : Elem) : (x.readingAs e).type = .scalar e := by
  rcases x with (_ | _) | _ | _ <;> rfl

/-- The way to read an operand is one of the ways to read the argument. -/
theorem readingAs_mem (h : x.operand? e = some p) : x.readingAs e ∈ x.readings := by
  rcases operand?_eq_some h with ⟨e', u, v, rfl, eq, -⟩ | ⟨xs, rfl, -⟩
  · -- Either nothing is converted between the types, or the reading is one of those listed.
    cases e' <;> cases e <;> first | (cases eq; done) | simp [readingAs, readings]
  · simp [readingAs, readings]

/-- Whether an argument can be an operand of one element type alone. -/
def Pinned (e : Elem) (x : Argument) : Prop :=
  ∀ r ∈ x.readings, ∀ {e'}, r.type = .scalar e' → e' = e

/-- The elements of an array are not converted, so an array is an operand of its own type only. -/
theorem pinned_of_isArray (h : x.operand? e = some p) (array : x.isArray = true) : Pinned e x := by
  rcases operand?_eq_some h with ⟨e', u, v, rfl, -, -⟩ | ⟨xs, rfl, -⟩
  · cases array
  intro r mem e' type
  rcases mem_readings_array.mp mem with rfl | rfl
  · cases type
  · cases type
    rfl

/-- No scalar but an integer serves as one of another type. -/
theorem pinned_scalar {v : e.Carrier} (ne : e ≠ .int) : Pinned e (.datum (.scalar e v)) := by
  intro r mem e' type
  rcases reading_cases mem with ⟨_, _, _, eq, rfl, same⟩ | ⟨_, _, eq, -⟩ | ⟨_, _, eq, -⟩
  · cases eq
    cases type
    rcases same with rfl | ⟨rfl, -⟩
    · rfl
    · exact absurd rfl ne
  · cases eq
  · cases eq

end Argument

/-- An overload that takes the arguments is selected when each is read as its operand. -/
theorem Takes.select?_eq (scalars : onScalars name = true) (takes : Takes name args e o) :
    select? name (args.map (·.readingAs e)) = some o := by
  have types : (args.map (·.readingAs e)).map Reading.type = args.map fun _ => .scalar e := by
    rw [List.map_map]
    exact List.map_congr_left fun x _ => x.type_readingAs e
  obtain ⟨result, -⟩ := exists_elem_of_onScalars scalars (of_find?_eq_some takes.found).1
  rw [select?, types, takes.found]
  simp [result]

/-- To read each argument as its operand is a candidate. -/
theorem Takes.mem_candidates (takes : Takes name args e o) :
    args.map (·.readingAs e) ∈ candidates args := by
  refine mem_choices_of_forall₂ ?_
  rw [List.forall₂_map_left_iff, List.forall₂_map_right_iff, List.forall₂_same]
  intro x mem
  obtain ⟨p, h⟩ := takes.operands x mem
  exact Argument.readingAs_mem h

/-- Each candidate that selects an overload reads all arguments as operands of its type. -/
theorem takes_of_select? (scalars : onScalars name = true) {candidate : List Reading}
    (mem : candidate ∈ candidates args) (selected : select? name candidate = some o) :
    ∃ e, Takes name args e o ∧ ∀ r ∈ candidate, r.type = .scalar e := by
  have readings := forall₂_of_mem_candidates mem
  have found := (find?_of_select? selected).1
  obtain ⟨listed, params⟩ := of_find?_eq_some found
  obtain ⟨-, e, each⟩ := exists_elem_of_onScalars scalars listed
  have types : ∀ r ∈ candidate, r.type = .scalar e := by
    intro r mem
    exact each _ (params ▸ List.mem_map_of_mem mem)
  refine ⟨e, ⟨?_, ?_⟩, types⟩
  · -- The candidate and the arguments are as many, and all that counts is their number.
    rw [← found, List.map_congr_left types, List.map_const', List.map_const',
      readings.length_eq]
  · intro x mem
    obtain ⟨r, mem', readable⟩ := exists_of_mem_related readings mem
    exact operand?_of_fits (fits_of_scalar readable (types r mem'))

/-! ### Calls -/

theorem findSome?_eq_of_forall {α β : Type} {l : List α} {f : α → Option β} {v : Option β} {a : α}
    (each : ∀ a ∈ l, f a = none ∨ f a = v) (mem : a ∈ l) (gives : f a = v) :
    l.findSome? f = v := by
  cases found : l.findSome? f with
  | none => rw [← gives, List.findSome?_eq_none_iff.mp found a mem]
  | some b =>
    obtain ⟨a', mem', gives'⟩ := List.exists_of_findSome?_eq_some found
    rcases each a' mem' with none | same
    · cases none.symm.trans gives'
    · exact gives'.symm.trans same

/-- Where an argument can be read as of one type only, no other overload is selected. -/
theorem findSome?_of_pinned (scalars : onScalars name = true) (takes : Takes name args e o)
    (applied : o.operation.apply? args = some outcome) {x : Argument} (mem : x ∈ args)
    (pinned : x.Pinned e) :
    (candidates args).findSome? (attempt name args) = settled outcome := by
  refine findSome?_eq_of_forall ?_ takes.mem_candidates
    (attempt_eq_settled (takes.select?_eq scalars) applied)
  intro candidate listed
  cases selected : select? name candidate with
  | none => exact .inl (attempt_eq_none selected)
  | some o' =>
    obtain ⟨e', takes', types⟩ := takes_of_select? scalars listed selected
    obtain ⟨r, mem', readable⟩ := exists_of_mem_related (forall₂_of_mem_candidates listed) mem
    obtain rfl := pinned r readable (types r mem')
    obtain rfl := Option.some.inj (takes'.found.symm.trans takes.found)
    exact .inr (attempt_eq_settled selected applied)

/-- Integers are read as such first. -/
theorem findSome?_of_ints (scalars : onScalars name = true) (takes : Takes name args .int o)
    (applied : o.operation.apply? args = some outcome)
    (ints : ∀ x ∈ args, ∃ n, x = .datum (.scalar .int n)) :
    (candidates args).findSome? (attempt name args) = settled outcome := by
  have first : List.Forall₂ (fun r options => options.head? = some r)
      (args.map (·.readingAs .int)) (args.map Argument.readings) := by
    rw [List.forall₂_map_left_iff, List.forall₂_map_right_iff, List.forall₂_same]
    intro x mem
    obtain ⟨n, rfl⟩ := ints x mem
    rfl
  obtain ⟨rest, eq⟩ := choices_eq_cons first
  have fits : settled outcome = some outcome := by
    obtain ⟨listed, params⟩ := of_find?_eq_some takes.found
    obtain ⟨result, -⟩ := exists_elem_of_onScalars scalars listed
    refine settled_eq_some (fits_of_ones params result (fun x mem => ?_) applied)
    obtain ⟨n, rfl⟩ := ints x mem
    exact ⟨n, rfl⟩
  rw [candidates, eq, List.findSome?_cons,
    attempt_eq_settled (takes.select?_eq scalars) applied, fits]

/-- The overload for the element type of the arguments settles the call, if one of them is of that
type and not just an integer that can be read so. -/
theorem call_of_takes (scalars : onScalars name = true) (takes : Takes name args e o)
    (applied : o.operation.apply? args = some outcome)
    (own : e = .int ∨ ∃ x ∈ args, x.Pinned e) : call name args = settled outcome := by
  obtain ⟨listed, params⟩ := of_find?_eq_some takes.found
  have le : args.length ≤ maxArity name := by
    simpa [params] using length_params_le_maxArity listed
  rw [call_eq, if_pos le]
  -- Nothing but an integer can be an operand of two types.
  by_cases pinned : ∃ x ∈ args, x.Pinned e
  · obtain ⟨x, mem, pinned⟩ := pinned
    exact findSome?_of_pinned scalars takes applied mem pinned
  · obtain rfl := own.resolve_right pinned
    refine findSome?_of_ints scalars takes applied fun x mem => ?_
    obtain ⟨p, h⟩ := takes.operands x mem
    rcases Argument.operand?_eq_some h with ⟨e, u, v, rfl, eq, -⟩ | ⟨xs, rfl, -⟩
    · cases e with
      | int => exact ⟨u, rfl⟩
      | double | bool => cases eq
    · exact absurd ⟨_, mem, Argument.pinned_of_isArray h rfl⟩ pinned

/-- What gives an outcome is called with data. -/
theorem exists_data_of_call (scalars : onScalars name = true)
    (gives : call name args = some outcome) : ∃ ds : List Datum, args = ds.map .datum := by
  rw [call_eq] at gives
  split at gives
  · obtain ⟨c, mem, attempted⟩ := List.exists_of_findSome?_eq_some gives
    cases selected : select? name c with
    | none => cases (attempt_eq_none selected).symm.trans attempted
    | some o =>
      obtain ⟨e, takes, -⟩ := takes_of_select? scalars mem selected
      have data : ∀ x ∈ args, ∃ d, x = .datum d := by
        intro x mem
        obtain ⟨p, h⟩ := takes.operands x mem
        rcases Argument.operand?_eq_some h with ⟨e', u, v, eq, -⟩ | ⟨xs, eq, -⟩ <;>
          exact ⟨_, eq⟩
      obtain ⟨ds, related⟩ := exists_related data
      refine ⟨ds, ?_⟩
      rwa [← List.forall₂_eq_eq_eq, List.forall₂_map_right_iff]
  · cases gives

section Slices

variable {n i : Nat}

/-- An argument of an element type of its own has slices of that type. -/
theorem own_slice {x : Argument} {p : Operand e.Carrier} (h : x.operand? e = some p)
    (array : x.isArray = true) (length : x.HasLength n) (lt : i < n) :
    e = .int ∨ (x.slice i).Pinned e := by
  rcases Argument.operand?_eq_some h with ⟨e', u, v, rfl, -, -⟩ | ⟨xs, rfl, -⟩
  · cases array
  · have length : xs.length = n := length
    rw [Argument.slice, List.getElem?_eq_getElem (length ▸ lt)]
    by_cases int : e = .int
    · exact .inl int
    · exact .inr (Argument.pinned_scalar int)

/-- An overload that takes arrays of one length takes their slices, which are scalars. -/
theorem Takes.slice (takes : Takes name args e o) (aligned : Aligned args n) (lt : i < n) :
    Takes name (args.map (·.slice i)) e o ∧
      ∀ x ∈ args.map (·.slice i), ∃ v, x.operand? e = some (.one v) := by
  have ones : ∀ x ∈ args.map (·.slice i), ∃ v, x.operand? e = some (.one v) := by
    intro x' mem'
    obtain ⟨x, mem, rfl⟩ := List.mem_map.mp mem'
    obtain ⟨p, h⟩ := takes.operands x mem
    obtain ⟨v, get⟩ := Operand.exists_get? ((Argument.hasLength_iff h).mp (aligned x mem)) lt
    exact ⟨v, Argument.operand?_slice h get⟩
  refine ⟨⟨?_, fun x mem => ?_⟩, ones⟩
  · rw [List.map_map]
    exact takes.found
  · obtain ⟨v, h⟩ := ones x mem
    exact ⟨_, h⟩

end Slices

/-- A call on arrays selects nothing, or it is told by the calls on the slices. -/
theorem call_elementwise (scalars : onScalars name = true) (array : ∃ x ∈ args, x.isArray = true) :
    (call name args = none ∧ ∀ candidate ∈ candidates args, select? name candidate = none) ∨
    ∃ outcome, call name args = settled outcome ∧
      Elementwise args (fun i r => call name (args.map (·.slice i)) = some r) outcome := by
  by_cases selects : ∀ candidate ∈ candidates args, select? name candidate = none
  · exact .inl ⟨call_eq_none selects, selects⟩
  · obtain ⟨c, mem, selected⟩ : ∃ c ∈ candidates args, ∃ o, select? name c = some o := by
      simpa [Option.ne_none_iff_exists'] using selects
    obtain ⟨o, selected⟩ := selected
    obtain ⟨e, takes, -⟩ := takes_of_select? scalars mem selected
    obtain ⟨listed, params⟩ := of_find?_eq_some takes.found
    obtain ⟨result, -⟩ := exists_elem_of_onScalars scalars listed
    obtain ⟨outcome, applied, elementwise⟩ :=
      apply_elementwise params result takes.operands array
    obtain ⟨x, mem, isArray⟩ := array
    obtain ⟨p, h⟩ := takes.operands x mem
    refine .inr ⟨outcome, call_of_takes scalars takes applied
      (.inr ⟨x, mem, Argument.pinned_of_isArray h isArray⟩), elementwise.imp ?_⟩
    -- The slices select the same overload in a search of their own.
    intro n i r aligned lt applied
    obtain ⟨taken, ones⟩ := takes.slice aligned lt
    have fits := fits_of_ones (of_find?_eq_some taken.found).2 result ones applied
    have own : e = .int ∨ ∃ x ∈ args.map (·.slice i), x.Pinned e :=
      (own_slice h isArray (aligned x mem) lt).imp_right fun pinned =>
        ⟨_, List.mem_map_of_mem mem, pinned⟩
    rw [call_of_takes scalars taken applied own, settled_eq_some fits]

end Tacit.Builtin
