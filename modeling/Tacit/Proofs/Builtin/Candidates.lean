import Tacit.Proofs.Builtin.Access
import Tacit.Proofs.Builtin.Odometer

/-!
The candidates of a call, as the search for an overload goes through them.

* `call_eq`: a call is decided by the first candidate that gives anything.
* `nodup_readings`: no argument is read in one way twice.
* `candidates_in_order`: the odometer gives each candidate once, in the order of its positions, and
  then nothing any more.
-/

namespace Tacit.Builtin

/-- A call tries its candidates in order, and none if the arguments are too many for the name. -/
theorem call_eq (name : String) (args : List Argument) :
    call name args = if args.length ≤ maxArity name then
      (candidates args).findSome? (attempt name args) else none := by
  rw [call, odometer, Odometer.search_start, candidates]

/-! ### Readings -/

/-- Overloads of one name differ in their signatures. -/
theorem pairwise_signature_ne :
    table.Pairwise fun o o' => o.name = o'.name → o.signature ≠ o'.signature := by
  decide +kernel

/-- No argument is read in the same way twice. -/
theorem nodup_readings (x : Argument) : x.readings.Nodup := by
  cases x with
  | datum d =>
    rcases d with ⟨e, v⟩ | ⟨e, v⟩ <;> cases e <;>
      simp [Argument.readings, Reading.exact, Reading.elements]
  | function name =>
    rw [Argument.readings, List.Nodup, List.pairwise_map, overloads, List.pairwise_filter]
    refine pairwise_signature_ne.imp ?_
    intro o o' differ named named' same
    have eq : o.name = o'.name := (of_decide_eq_true named).trans (of_decide_eq_true named').symm
    refine differ eq ?_
    obtain ⟨params, result⟩ := ArgType.function.inj (Reading.mk.inj same).1
    change Signature.mk o.signature.params o.signature.result = _
    rw [params, result]
  | other => exact List.nodup_nil

/-! ### Candidates -/

/-- There are as many candidates as turns of the odometer. -/
theorem length_candidates (args : List Argument) :
    (candidates args).length = Odometer.total (args.map Argument.readings) :=
  Odometer.length_choices _

/-- The candidates are all ways to read each argument in one of its ways. -/
theorem mem_candidates_iff {args : List Argument} {candidate : List Reading} :
    candidate ∈ candidates args ↔ List.Forall₂ (fun r x => r ∈ x.readings) candidate args :=
  ⟨forall₂_of_mem_candidates, fun h => mem_choices_of_forall₂ (List.forall₂_map_right_iff.mpr h)⟩

/-- No candidate is tried twice. -/
theorem nodup_candidates (args : List Argument) : (candidates args).Nodup := by
  refine Odometer.nodup_choices ?_
  intro list mem
  obtain ⟨x, -, rfl⟩ := List.mem_map.mp mem
  exact nodup_readings x

/-- The odometer shows the candidates in their order, one at each turn. -/
theorem item_odometer (args : List Argument) (j : Nat) :
    (odometer args).item j = (candidates args)[j]?.map some :=
  Odometer.item_start _ j

/-- The odometer gives as many candidates as the numbers of readings multiply to. The one that it
gives after `j` turns takes from each argument the reading that a digit of `j` points at, in the
mixed radix of the numbers of readings, of which the first is the least significant. Each choice of
readings is given after one number of turns and no other. After the last one, nothing is given for
ever; so it is from the start if an argument has no readings, and after the empty candidate if there
are no arguments. -/
theorem candidates_in_order (args : List Argument) :
    (∀ j < Odometer.total (args.map Argument.readings), ∃ candidate : List Reading,
      (odometer args).item j = some (some candidate) ∧ candidate.length = args.length ∧
      ∀ p r x, candidate[p]? = some r → args[p]? = some x →
        x.readings[j / Odometer.total ((args.take p).map Argument.readings) % x.readings.length]? =
          some r) ∧
    (∀ j, Odometer.total (args.map Argument.readings) ≤ j → (odometer args).item j = none) ∧
    (∀ candidate, List.Forall₂ (fun r x => r ∈ x.readings) candidate args ↔
      ∃! j, (odometer args).item j = some (some candidate)) ∧
    ((∃ x ∈ args, x.readings = []) → ∀ j, (odometer args).item j = none) ∧
    (args = [] → ∀ j, (odometer args).item j = if j = 0 then some (some []) else none) := by
  refine ⟨?_, ?_, ?_, ?_, ?_⟩
  · intro j lt
    rw [← length_candidates] at lt
    have found := List.getElem?_eq_getElem lt
    refine ⟨_, by rw [item_odometer, found]; rfl, ?_, ?_⟩
    · exact (mem_candidates_iff.mp (List.mem_of_getElem? found)).length_eq
    · intro p r x picked arg
      have digit := Odometer.getElem?_choices found p
      rw [picked, List.getElem?_map, arg, ← List.map_take] at digit
      exact digit.symm
  · intro j le
    rw [item_odometer, List.getElem?_eq_none (by rwa [length_candidates])]
    rfl
  · intro candidate
    rw [← mem_candidates_iff, List.mem_iff_getElem?]
    simp only [item_odometer, Option.map_eq_some_iff, Option.some.injEq, exists_eq_right]
    constructor
    · rintro ⟨j, found⟩
      refine ⟨j, found, ?_⟩
      intro j' found'
      obtain ⟨lt', -⟩ := List.getElem?_eq_some_iff.mp found'
      exact (List.getElem?_inj lt' (nodup_candidates args)).mp (found'.trans found.symm)
    · exact ExistsUnique.exists
  · rintro ⟨x, mem, none⟩ j
    have empty : (candidates args).length = 0 := by
      rw [candidates, Odometer.length_choices_eq_zero_iff, List.any_map, List.any_eq_true]
      exact ⟨x, mem, List.isEmpty_iff.mpr none⟩
    rw [item_odometer, List.getElem?_eq_none (empty ▸ Nat.zero_le j)]
    rfl
  · rintro rfl j
    rw [item_odometer]
    cases j <;> rfl

/-- The first argument turns first. -/
example : (odometer [.datum (.scalar .int 1), .datum (.array .int [2])]).item 1 =
    some (some [.exact (.scalar .double), .exact (.array .int)]) := by
  decide

end Tacit.Builtin
