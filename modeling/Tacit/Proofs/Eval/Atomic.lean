import Tacit.Proofs.Eval.Calls
import Tacit.Proofs.Store.Columns

/-!
Calls of builtins are atomic: a call that fails changes nothing, wherever in an array the operation
fails and however many candidates were tried before, and a call that succeeds appends its result
and does nothing else.

* `exists_calls_of_valid`: words that are valid can be called, and be the arguments of a call.
* `callBuiltin_atomic`: what a call leaves of the store.
-/

namespace Tacit.Eval

open Builtin

variable {s : Store} {slot : Nat} {argument : Word}

/-- A valid name and a valid word make a call, since both can be read. -/
theorem exists_calls_of_valid (h : s.WellFormed) (named : s.Valid (.name slot))
    (valid : s.Valid argument) : ∃ name args, Calls s (.name slot) argument name args := by
  obtain ⟨c, same⟩ := Store.Shows.of_wellFormed h
  obtain ⟨t, unfolds⟩ := h.exists_unfolds valid
  have slotted : slot < s.names.size := named
  exact ⟨s.names[slot], c.arguments t, Store.name_eq_ok (Array.getElem?_eq_getElem slotted),
    arguments_eq_ok same unfolds⟩

/-- A call of a name in a well-formed store fails with the store as it was, or it appends one value
to the column of its kind, namely what the first candidate that fits gives. The result is the slot
where that column ended before, and nothing else has changed.

Operations are pure: `call` gives a datum or an error and sees no store. The datum is stored by one
`make`, the last step of a call, so there is one place where a value is made and nothing can fail
behind it. It is not each operation that stores its own result. -/
theorem callBuiltin_atomic (h : s.WellFormed) (named : s.Valid (.name slot))
    (valid : s.Valid argument) : ∃ name args, Calls s (.name slot) argument name args ∧
      ((∃ e, callBuiltin (.name slot) argument s = .error (.error e) s) ∨
        ∃ d w s', call name args = some (.ok d) ∧
          callBuiltin (.name slot) argument s = .ok w s' ∧ s.Appends (.datum d) w s') := by
  obtain ⟨name, args, calls⟩ := exists_calls_of_valid h named valid
  refine ⟨name, args, calls, ?_⟩
  simp only [callBuiltin]
  rw [ask_bind calls.name_eq]
  split
  case isFalse => exact .inl ⟨_, rfl⟩
  case isTrue =>
    rw [ask_bind calls.arguments_eq]
    cases call name args with
    | none => exact .inl ⟨_, rfl⟩
    | some outcome =>
      cases outcome with
      | error e => exact .inl ⟨_, rfl⟩
      | ok d => exact .inr ⟨d, _, _, rfl, rfl, s.appends_create (.datum d)⟩

/-- The division fails at the second index, after the first. The product is the fourth array of
integers. -/
theorem callBuiltin_atomic_products : ∃ s,
    s = (Source.parse .empty "div [(6 8) (2 0)]\nmul [10 (3 4)]").2 ∧
    (∃ e, callBuiltin (.name 0) (.tuple 0) s = .error (.error e) s) ∧
    ∃ d s', callBuiltin (.name 1) (.tuple 1) s = .ok (.array .int 3) s' ∧
      s.Appends (.datum d) (.array .int 3) s' := by
  have wellFormed :=
    (Store.Reachable.empty.parse "div [(6 8) (2 0)]\nmul [10 (3 4)]").wellFormed
  have shape : (fun s : Store => s.names.size = 2 ∧ s.tuples.size = 2 ∧
      (callBuiltin (.name 0) (.tuple 0)).failure? s =
        some (.error (.operation .divisionByZero)) ∧
      (callBuiltin (.name 1) (.tuple 1)).result? s = some (.array .int 3))
      (Source.parse .empty "div [(6 8) (2 0)]\nmul [10 (3 4)]").2 := by
    decide +kernel
  refine ⟨_, rfl, ?_⟩
  revert wellFormed shape
  generalize (Source.parse .empty "div [(6 8) (2 0)]\nmul [10 (3 4)]").2 = s
  rintro wellFormed ⟨names, tuples, failed, succeeded⟩
  have valid : ∀ {i : Nat}, i < 2 → s.Valid (.name i) ∧ s.Valid (.tuple i) := by
    intro i lt
    exact ⟨lt.trans_eq names.symm, lt.trans_eq tuples.symm⟩
  constructor
  · obtain ⟨name, args, -, failure | ⟨d, w, s', -, result, -⟩⟩ :=
      callBuiltin_atomic wellFormed (valid Nat.zero_lt_two).1 (valid Nat.zero_lt_two).2
    · exact failure
    · rw [failure?, result] at failed
      cases failed
  · obtain ⟨name, args, -, ⟨e, failure⟩ | ⟨d, w, s', -, result, appends⟩⟩ :=
      callBuiltin_atomic wellFormed (valid Nat.one_lt_two).1 (valid Nat.one_lt_two).2
    · rw [result?, failure] at succeeded
      cases succeeded
    · rw [result?, result] at succeeded
      cases succeeded
      exact ⟨d, s', result, appends⟩

end Tacit.Eval
