import Tacit.Proofs.Builtin.Dispatch
import Tacit.Proofs.Eval.Congruence
import Tacit.Proofs.Eval.Scene
import Tacit.Proofs.Session.Reachable

/-!
Calls of builtins on arrays, and the calls on the slices of their arguments.

* `comesTo_callBuiltin`: a call comes to what the builtin gives.
* `callBuiltin_cases`: a call on arrays fits no overload, or is told by the calls on the slices.
* `callBuiltin_slices`: a builtin on scalars makes of arrays what it makes of their elements, one
  index at a time, and it fails where it fails for them.
-/

namespace Tacit.Eval

open Builtin

/-- A call in a store: the name of the function, and the arguments that the word hands to it. -/
structure Calls (s : Store) (f w : Word) (name : String) (args : List Argument) : Prop where
  name_eq : s.name f = .ok name
  arguments_eq : s.arguments w = .ok args

/-- A call gives a word for the datum, or fails with the error of the operation. -/
inductive ComesTo : EStateM.Result Failure Store Word → Except OperationError Datum → Prop where
  | ok {s : Store} {w : Word} {d : Datum} : s.get? w = some (.datum d) → ComesTo (.ok w s) (.ok d)
  | error {s : Store} {e : OperationError} : ComesTo (.error (.error (.operation e)) s) (.error e)

/-- All calls of a name with the arguments come to one outcome, and from the store on there is such
a call. -/
structure CallGives (s : Store) (name : String) (args : List Argument)
    (outcome : Except OperationError Datum) : Prop where
  exists_calls : ∃ s' f w, s.GrowsTo s' ∧ s'.WellFormed ∧ Calls s' f w name args
  comesTo : ∀ {s' f w}, Calls s' f w name args → ComesTo (callBuiltin f w s') outcome

namespace ComesTo

variable {result : EStateM.Result Failure Store Word} {outcome : Except OperationError Datum}
  {e : OperationError}

theorem exists_eq_error (h : ComesTo result (.error e)) :
    ∃ s, result = .error (.error (.operation e)) s := by
  cases h
  exact ⟨_, rfl⟩

theorem outcome_eq_error {s : Store} (h : ComesTo (.error (.error (.operation e)) s) outcome) :
    outcome = .error e := by
  cases h
  rfl

end ComesTo

variable {s : Store} {f w : Word} {name : String} {args : List Argument}

/-- A call comes to what the builtin gives for its arguments. -/
theorem comesTo_callBuiltin (calls : Calls s f w name args) (builtin : isBuiltin name = true)
    {outcome : Except OperationError Datum} (gives : call name args = some outcome) :
    ComesTo (callBuiltin f w s) outcome := by
  simp only [callBuiltin]
  rw [ask_bind calls.name_eq, if_pos builtin, ask_bind calls.arguments_eq, gives]
  cases outcome with
  | ok d => exact .ok (Store.get?_create_self s (.datum d))
  | error e => exact .error

/-- Where the builtin takes no reading of the arguments, the call fails and the store is as it
was. -/
theorem callBuiltin_eq_error (calls : Calls s f w name args) (builtin : isBuiltin name = true)
    (gives : call name args = none) :
    callBuiltin f w s = .error (.error (.noMatchingOverload f w)) s := by
  simp only [callBuiltin]
  rw [ask_bind calls.name_eq, if_pos builtin, ask_bind calls.arguments_eq, gives]
  rfl

/-- Words for any data can be made, and handed to a name in a tuple. -/
theorem exists_calls (h : s.WellFormed) (called : s.name f = .ok name) (ds : List Datum) :
    ∃ s' f w, s.GrowsTo s' ∧ s'.WellFormed ∧ Calls s' f w name (ds.map .datum) := by
  obtain ⟨c, same⟩ := Store.Shows.of_wellFormed h
  obtain ⟨s', words, grows, same', parts⟩ := same.exists_data ds
  have tuple : s'.UnfoldsValue (.tuple (.unconnected words)) (.tuple none (ds.map .datum)) :=
    .tuple .none parts
  have grows' := grows.trans (Store.growsTo_create s' (.tuple (.unconnected words)))
  refine ⟨_, f, (s'.create (.tuple (.unconnected words))).1, grows',
    (same'.create tuple).wellFormed, grows'.name_eq_ok called, ?_⟩
  rw [arguments_eq_ok (same'.create tuple) tuple.create, Scene.arguments, Tree.components,
    List.map_map]
  rfl

/-- What a builtin on scalars gives is given by calls that can be made. -/
theorem callGives_of_call (h : s.WellFormed) (called : s.name f = .ok name)
    (scalars : onScalars name = true) {outcome : Except OperationError Datum}
    (gives : call name args = some outcome) : CallGives s name args outcome := by
  obtain ⟨ds, rfl⟩ := exists_data_of_call scalars gives
  exact ⟨exists_calls h called ds, fun calls =>
    comesTo_callBuiltin calls (isBuiltin_of_onScalars scalars) gives⟩

/-- A call on arrays finds no overload for arrays of one length, or it comes to an outcome that is
told by the calls on the slices. -/
theorem callBuiltin_cases (h : s.WellFormed) (calls : Calls s f w name args)
    (scalars : onScalars name = true) (array : ∃ x ∈ args, x.isArray = true) :
    (callBuiltin f w s = .error (.error (.noMatchingOverload f w)) s ∧
      ∀ candidate ∈ candidates args, (select? name candidate).isSome → ∀ n, ¬ Aligned args n) ∨
    ∃ outcome, ComesTo (callBuiltin f w s) outcome ∧ (∃ n, Aligned args n) ∧
      Elementwise args (fun i => CallGives s name (args.map (·.slice i))) outcome := by
  have builtin := isBuiltin_of_onScalars scalars
  rcases call_elementwise scalars array with ⟨none, unselected⟩ | ⟨outcome, eq, elementwise⟩
  · refine .inl ⟨callBuiltin_eq_error calls builtin none, fun candidate mem selected => ?_⟩
    simp [unselected candidate mem] at selected
  · have told := elementwise.imp fun _ _ => callGives_of_call h calls.name_eq scalars
    cases elementwise with
    | ok aligned => exact .inr ⟨_, comesTo_callBuiltin calls builtin eq, ⟨_, aligned⟩, told⟩
    | divisionByZero aligned =>
      exact .inr ⟨_, comesTo_callBuiltin calls builtin eq, ⟨_, aligned⟩, told⟩
    | lengthMismatch never =>
      exact .inl ⟨callBuiltin_eq_error calls builtin eq, fun _ _ _ => never⟩

/-- A call of a builtin on scalars with an array among the arguments, and the calls on the slices
of the arguments. A result is an array of the results for the slices, as long as the arrays are.
Division by zero fails at a slice, and on the whole wherever it fails at a slice. Besides, the call
fails for want of an overload only, which is to say of a candidate with arrays of one length. -/
theorem callBuiltin_slices (h : s.WellFormed) (calls : Calls s f w name args)
    (scalars : onScalars name = true) (array : ∃ x ∈ args, x.isArray = true) :
    (∀ v s', callBuiltin f w s = .ok v s' → ∃ n e zs, Aligned args n ∧
      s'.get? v = some (.datum (.array e zs)) ∧ zs.length = n ∧
      ∀ i z, zs[i]? = some z → CallGives s name (args.map (·.slice i)) (.ok (.scalar e z))) ∧
    (∀ failure s', callBuiltin f w s = .error failure s' →
      (failure = .error (.operation .divisionByZero) ∧ ∃ n i, Aligned args n ∧ i < n ∧
        CallGives s name (args.map (·.slice i)) (.error .divisionByZero)) ∨
      (failure = .error (.noMatchingOverload f w) ∧ ∀ candidate ∈ candidates args,
        (select? name candidate).isSome → ∀ n, ¬ Aligned args n)) ∧
    ∀ n i, (∃ candidate ∈ candidates args, (select? name candidate).isSome) → Aligned args n →
      i < n → (∃ t g v t', Calls t g v name (args.map (·.slice i)) ∧
        callBuiltin g v t = .error (.error (.operation .divisionByZero)) t') →
      ∃ s', callBuiltin f w s = .error (.error (.operation .divisionByZero)) s' := by
  rcases callBuiltin_cases h calls scalars array with
    ⟨eq, never⟩ | ⟨outcome, comes, ⟨m, one⟩, elementwise⟩
  · rw [eq]
    refine ⟨nofun, ?_, ?_⟩
    · intro failure s' failed
      cases failed
      exact .inr ⟨rfl, never⟩
    · rintro n i ⟨candidate, mem, selected⟩ aligned
      exact absurd aligned (never candidate mem selected n)
  · refine ⟨?_, ?_, ?_⟩
    · intro v s' succeeded
      rw [succeeded] at comes
      cases comes with
      | ok found =>
        cases elementwise with
        | ok aligned each => exact ⟨_, _, _, aligned, found, rfl, each⟩
    · intro failure s' failed
      rw [failed] at comes
      cases comes with
      | error =>
        cases elementwise with
        | divisionByZero aligned lt fails => exact .inl ⟨rfl, _, _, aligned, lt, fails⟩
        | lengthMismatch never => exact absurd one (never m)
    · rintro n i - aligned lt ⟨t, g, v, t', calls', failed⟩
      have fails : outcome = .error .divisionByZero :=
        elementwise.eq_divisionByZero array aligned lt fun gives =>
          (failed ▸ gives.comesTo calls').outcome_eq_error
      exact (fails ▸ comes).exists_eq_error

/-- With a bound name for the ten in `sub [10 (1 2 3)]`, which gives an array, and in
`div [10 (1 0 3)]`, which fails at the second index. -/
theorem callBuiltin_slices_bound : ∃ s,
    s = (Source.parse ((Session.mk .empty).run 20 "x: 10").2.store
      "sub [x (1 2 3)]\ndiv [x (1 0 3)]").2 ∧
    (∃ v s' e zs, callBuiltin (.name 1) (.tuple 0) s = .ok v s' ∧
      s'.get? v = some (.datum (.array e zs)) ∧ zs.length = 3 ∧
      ∀ i z, zs[i]? = some z → CallGives s "sub"
        [.datum (.scalar .int 10), Argument.slice i (.datum (.array .int [1, 2, 3]))]
        (.ok (.scalar e z))) ∧
    ∃ s' i, callBuiltin (.name 3) (.tuple 1) s =
        .error (.error (.operation .divisionByZero)) s' ∧ i < 3 ∧
      CallGives s "div"
        [.datum (.scalar .int 10), Argument.slice i (.datum (.array .int [1, 0, 3]))]
        (.error .divisionByZero) := by
  have wellFormed := ((Store.Reachable.empty.run 20 "x: 10").parse
    "sub [x (1 2 3)]\ndiv [x (1 0 3)]").wellFormed
  have shape : (fun s : Store => s.bindings = [("x", .scalar .int 0)] ∧
      s.names = #["x", "sub", "x", "div", "x"] ∧ (s.columns .int).scalars = #[10] ∧
      (s.columns .int).arrays = #[[1, 2, 3], [1, 0, 3]] ∧
      s.tuples = #[.unconnected [.name 2, .array .int 0], .unconnected [.name 4, .array .int 1]] ∧
      ((callBuiltin (.name 1) (.tuple 0)).result? s).isSome = true ∧
      (callBuiltin (.name 3) (.tuple 1)).failure? s =
        some (.error (.operation .divisionByZero)))
      (Source.parse ((Session.mk .empty).run 20 "x: 10").2.store
        "sub [x (1 2 3)]\ndiv [x (1 0 3)]").2 := by
    decide +kernel
  refine ⟨_, rfl, ?_⟩
  revert wellFormed shape
  generalize (Source.parse ((Session.mk .empty).run 20 "x: 10").2.store
    "sub [x (1 2 3)]\ndiv [x (1 0 3)]").2 = s
  rintro wellFormed ⟨bindings, names, ints, arrays, tuples, succeeded, failed⟩
  obtain ⟨c, same⟩ := Store.Shows.of_wellFormed wellFormed
  have ten : c.env "x" = some (.datum (.scalar .int 10)) :=
    same.env_eq_some (w := .scalar .int 0) (by simp [Store.lookup, bindings, Bindings.lookup])
      (.scalar (by rw [ints]; rfl))
  have calls : ∀ {f i j k : Nat} {name : String} {xs : List Int32}, s.names[f]? = some name →
      s.tuples[i]? = some (.unconnected [.name j, .array .int k]) → s.names[j]? = some "x" →
      (s.columns .int).arrays[k]? = some xs → Calls s (.name f) (.tuple i) name
        [.datum (.scalar .int 10), .datum (.array .int xs)] := by
    intro f i j k name xs called tuple bound array
    refine ⟨Store.name_eq_ok called, ?_⟩
    rw [arguments_eq_ok same (.tuple tuple .none (.cons (.name bound) (.cons (.array array) .nil)))]
    simp [Scene.arguments, Tree.components, Scene.substitute, ten, Tree.argument]
  have sub : Calls s (.name 1) (.tuple 0) "sub"
      [.datum (.scalar .int 10), .datum (.array .int [1, 2, 3])] :=
    calls (by rw [names]; rfl) (by rw [tuples]; rfl) (by rw [names]; rfl) (by rw [arrays]; rfl)
  have div : Calls s (.name 3) (.tuple 1) "div"
      [.datum (.scalar .int 10), .datum (.array .int [1, 0, 3])] :=
    calls (by rw [names]; rfl) (by rw [tuples]; rfl) (by rw [names]; rfl) (by rw [arrays]; rfl)
  constructor
  · obtain ⟨results, -⟩ := callBuiltin_slices wellFormed sub (by decide +kernel)
      ⟨_, .tail _ (.head _), rfl⟩
    obtain ⟨v, s', result⟩ := exists_eq_ok succeeded
    obtain ⟨n, e, zs, aligned, found, length, each⟩ := results v s' result
    have three : 3 = n := aligned _ (.tail _ (.head _))
    exact ⟨v, s', e, zs, result, found, length.trans three.symm, each⟩
  · obtain ⟨-, failures, -⟩ := callBuiltin_slices wellFormed div (by decide +kernel)
      ⟨_, .tail _ (.head _), rfl⟩
    obtain ⟨s', result⟩ := exists_eq_error failed
    rcases failures _ s' result with ⟨-, n, i, aligned, lt, fails⟩ | ⟨overload, -⟩
    · have three : 3 = n := aligned _ (.tail _ (.head _))
      exact ⟨s', i, result, lt.trans_eq three.symm, fails⟩
    · cases overload

end Tacit.Eval
