import Tacit.Proofs.Builtin.Folds
import Tacit.Proofs.Eval.Calls

/-!
Folds and scans of arrays by a builtin, as calls in a store. The name of the builtin and an array
are handed on as they stand, so there are calls with the same builtin and with other arrays, such as
the beginnings of the one, and calls of the builtin itself.

* `callGives_foldl`, `callGives_operator`: what such calls give.
* `foldl_and_scanl_of_eq_nil`: the empty array, of which the fold and the scan fail by refusal only.
* `scanl_lists_foldl`: a scan lists the folds of the beginnings.
-/

namespace Tacit.Eval

open Builtin

variable {s s' : Store} {c : Scene} {f g v w : Word} {name op : String} {args : List Argument}
  {e : Elem} {xs : List e.Carrier}

/-- A word that hands on the name of a function as its first argument has a component for it. -/
theorem exists_component (same : s.Shows c) (valid : s.Valid w)
    (handed : s.arguments w = .ok (.function op :: args)) :
    ∃ v t, s.Unfolds v t ∧ (c.substitute t).argument = .function op := by
  obtain ⟨t, unfolds⟩ := same.wellFormed.exists_unfolds valid
  obtain ⟨words, -, parts⟩ := components_eq_ok unfolds
  rw [arguments_eq_ok same unfolds] at handed
  have eq : c.arguments t = .function op :: args := Except.ok.inj handed
  rw [Scene.arguments] at eq
  obtain ⟨first, rest, components, argument, -⟩ := List.map_eq_cons_iff.mp eq
  rw [components] at parts
  cases parts with
  | cons unfolds _ => exact ⟨_, first, unfolds, argument⟩

/-- Its name is known to the store. -/
theorem exists_name (wellFormed : s.WellFormed) (valid : s.Valid w)
    (handed : s.arguments w = .ok (.function op :: args)) : ∃ v, s.name v = .ok op := by
  obtain ⟨c, same⟩ := Store.Shows.of_wellFormed wellFormed
  obtain ⟨u, t, unfolds, argument⟩ := exists_component same valid handed
  obtain ⟨v, -, unfolds⟩ := substitute_eq_ok same unfolds
  generalize c.substitute t = t' at argument unfolds
  cases unfolds with
  | name found =>
    cases argument
    exact ⟨_, Store.name_eq_ok found⟩
  | _ => cases argument

/-- It can be handed on again, with any data. -/
theorem exists_calls_function (wellFormed : s.WellFormed) (valid : s.Valid w)
    (handed : s.arguments w = .ok (.function op :: args)) (called : s.name f = .ok name)
    (ds : List Datum) :
    ∃ s' f w, s.GrowsTo s' ∧ s'.WellFormed ∧ Calls s' f w name (.function op :: ds.map .datum) := by
  obtain ⟨c, same⟩ := Store.Shows.of_wellFormed wellFormed
  obtain ⟨v, t, unfolds, argument⟩ := exists_component same valid handed
  obtain ⟨s', words, grows, same', parts⟩ := same.exists_data ds
  have tuple : s'.UnfoldsValue (.tuple (.unconnected (v :: words)))
      (.tuple none (t :: ds.map .datum)) :=
    .tuple .none (.cons (unfolds.mono grows) parts)
  have grows' := grows.trans (Store.growsTo_create s' (.tuple (.unconnected (v :: words))))
  refine ⟨_, f, (s'.create (.tuple (.unconnected (v :: words)))).1, grows',
    (same'.create tuple).wellFormed, grows'.name_eq_ok called, ?_⟩
  rw [arguments_eq_ok (same'.create tuple) tuple.create, Scene.arguments, Tree.components,
    List.map_cons, argument, List.map_map]
  rfl

/-- A tuple of a name and an array hands on the two, if no name is bound. -/
theorem calls_of_unbound (wellFormed : s.WellFormed) (unbound : s.bindings = []) {f i j k : Nat}
    (called : s.names[f]? = some name)
    (tuple : s.tuples[i]? = some (.unconnected [.name j, .array e k]))
    (named : s.names[j]? = some op) (array : (s.columns e).arrays[k]? = some xs) :
    s.Valid (.tuple i) ∧
      Calls s (.name f) (.tuple i) name [.function op, .datum (.array e xs)] := by
  obtain ⟨c, same⟩ := Store.Shows.of_wellFormed wellFormed
  have free : c.env op = none := by
    rcases rel_cases (same.env op) with ⟨-, free⟩ | ⟨_, _, bound, -⟩
    · exact free
    · rw [Store.lookup, unbound] at bound
      cases bound
  have unfolds : s.Unfolds (.tuple i) _ :=
    .tuple tuple .none (.cons (.name named) (.cons (.array array) .nil))
  refine ⟨unfolds.valid, Store.name_eq_ok called, ?_⟩
  rw [arguments_eq_ok same unfolds]
  simp [Scene.arguments, Tree.components, Scene.substitute, free, Tree.argument]

theorem ComesTo.exists_eq_ok {result : EStateM.Result Failure Store Word} {d : Datum}
    (h : ComesTo result (.ok d)) : ∃ w s, result = .ok w s ∧ s.get? w = some (.datum d) := by
  cases h with
  | ok found => exact ⟨_, _, rfl, found⟩

/-- Calls of one name with the same arguments come to one outcome. -/
theorem CallGives.unique {outcome outcome' : Except OperationError Datum}
    (h : CallGives s name args outcome) (h' : CallGives s name args outcome') :
    outcome = outcome' := by
  obtain ⟨s', f, w, -, -, calls⟩ := h.exists_calls
  have comes := h.comesTo calls
  have comes' := h'.comesTo calls
  generalize callBuiltin f w s' = r at comes comes'
  cases comes with
  | ok found =>
    cases comes' with
    | ok found' =>
      cases found.symm.trans found'
      rfl
  | error => exact comes'.outcome_eq_error.symm

section Operators

variable {k : e.Carrier → e.Carrier → Option e.Carrier} (wellFormed : s.WellFormed)
  (valid : s.Valid w) (calls : Calls s f w "foldl" [.function op, .datum (.array e xs)])
  (accepted : operator? op e = some k)

include wellFormed valid calls accepted

/-- Where the fold of one array is accepted, so is that of every other of the type. -/
theorem callGives_foldl (ys : List e.Carrier) :
    CallGives s "foldl" [.function op, .datum (.array e ys)]
      (defined ((foldArray k e.zero ys).map (.scalar e))) where
  exists_calls :=
    exists_calls_function wellFormed valid calls.arguments_eq calls.name_eq [.array e ys]
  comesTo := fun calls => comesTo_callBuiltin calls (by decide) (call_foldl accepted ys)

/-- The operator itself can be called wherever its fold can. -/
theorem callGives_operator (y x : e.Carrier) :
    CallGives s op [.datum (.scalar e y), .datum (.scalar e x)]
      (defined ((k y x).map (.scalar e))) where
  exists_calls := by
    obtain ⟨v, named⟩ := exists_name wellFormed valid calls.arguments_eq
    exact exists_calls wellFormed named [.scalar e y, .scalar e x]
  comesTo := fun calls =>
    comesTo_callBuiltin calls (isBuiltin_of_operator? accepted) (call_operator accepted y x)

end Operators

/-- The one array lists the folds of the beginnings of the other: its first item is that of the
other, and each later one comes of the one before it and the item in its place. -/
structure ListsFolds (s : Store) (op : String) (e : Elem) (xs ys : List e.Carrier) : Prop where
  length_eq : ys.length = xs.length
  head?_eq : ys.head? = xs.head?
  folds : ∀ i y, ys[i]? = some y →
    CallGives s "foldl" [.function op, .datum (.array e (xs.take (i + 1)))] (.ok (.scalar e y))
  steps : ∀ i y x y', ys[i]? = some y → xs[i + 1]? = some x → ys[i + 1]? = some y' →
    CallGives s op [.datum (.scalar e y), .datum (.scalar e x)] (.ok (.scalar e y'))

/-- The fold and the scan of an empty array are both refused for want of an overload, or they give
the default of the element type and the empty array: no operator is called, so none can fail. -/
theorem foldl_and_scanl_of_eq_nil (empty : xs = [])
    (calls : Calls s f w "foldl" [.function op, .datum (.array e xs)])
    (scans : Calls s' g v "scanl" [.function op, .datum (.array e xs)]) :
    (callBuiltin f w s = .error (.error (.noMatchingOverload f w)) s ∧
      callBuiltin g v s' = .error (.error (.noMatchingOverload g v)) s') ∨
    (ComesTo (callBuiltin f w s) (.ok (.scalar e e.zero)) ∧
      ComesTo (callBuiltin g v s') (.ok (.array e []))) := by
  subst empty
  cases accepted : operator? op e with
  | none =>
    have rejected : ∀ name, call name [.function op, .datum (.array e [])] = none := fun _ =>
      call_eq_none_of_operator? accepted
    exact .inl ⟨callBuiltin_eq_error calls (by decide) (rejected _),
      callBuiltin_eq_error scans (by decide) (rejected _)⟩
  | some k =>
    exact .inr ⟨comesTo_callBuiltin calls (by decide) (call_foldl accepted []),
      comesTo_callBuiltin scans (by decide) (call_scanl accepted [])⟩

section Scan

variable (wellFormed : s.WellFormed) (valid : s.Valid w)
  (calls : Calls s f w "foldl" [.function op, .datum (.array e xs)])

include wellFormed valid calls

/-- An array of the folds of all beginnings lists them. -/
theorem listsFolds_of_scanArray {k : e.Carrier → e.Carrier → Option e.Carrier}
    (accepted : operator? op e = some k) {ys : List e.Carrier} (length : ys.length = xs.length)
    (each : ∀ i < xs.length, ys[i]? = foldArray k e.zero (xs.take (i + 1))) :
    ListsFolds s op e xs ys where
  length_eq := length
  head?_eq := by
    cases xs with
    | nil => rw [List.length_eq_zero_iff.mp length]
    | cons x xs =>
      rw [List.head?_eq_getElem?, each 0 (Nat.zero_lt_succ _)]
      rfl
  folds := by
    intro i y found
    obtain ⟨lt, -⟩ := List.getElem?_eq_some_iff.mp found
    have gives := callGives_foldl wellFormed valid calls accepted (xs.take (i + 1))
    rwa [← each i (length ▸ lt), found] at gives
  steps := by
    intro i y x y' found item found'
    obtain ⟨lt, -⟩ := List.getElem?_eq_some_iff.mp item
    have gives := callGives_operator wellFormed valid calls accepted y x
    have step := foldArray_take_succ item ((each i (Nat.lt_of_succ_lt lt)).symm.trans found)
      ((each (i + 1) lt).symm.trans found')
    rwa [step] at gives

/-- The folds of the beginnings of an array and its scan, whatever the store and the words are. Both
want for an overload, both fail for a division by zero, which a beginning fails for as well, or the
scan lists the folds, the last of which is that of the array. -/
theorem scanl_cases (scans : Calls s' g v "scanl" [.function op, .datum (.array e xs)]) :
    (callBuiltin f w s = .error (.error (.noMatchingOverload f w)) s ∧
      callBuiltin g v s' = .error (.error (.noMatchingOverload g v)) s' ∧
      operator? op e = none) ∨
    (ComesTo (callBuiltin f w s) (.error .divisionByZero) ∧
      ComesTo (callBuiltin g v s') (.error .divisionByZero) ∧
      CallGives s "foldl" [.function op, .datum (.array e xs)] (.error .divisionByZero)) ∨
    ∃ x ys, ComesTo (callBuiltin f w s) (.ok (.scalar e x)) ∧
      ComesTo (callBuiltin g v s') (.ok (.array e ys)) ∧ ListsFolds s op e xs ys ∧
      (∀ y, ys.getLast? = some y → y = x) ∧
      ∀ i, ∃ y, CallGives s "foldl" [.function op, .datum (.array e (xs.take i))]
        (.ok (.scalar e y)) := by
  cases accepted : operator? op e with
  | none =>
    exact .inl ⟨callBuiltin_eq_error calls (by decide) (call_eq_none_of_operator? accepted),
      callBuiltin_eq_error scans (by decide) (call_eq_none_of_operator? accepted), rfl⟩
  | some k =>
    have folded := comesTo_callBuiltin calls (by decide) (call_foldl accepted xs)
    have scanned := comesTo_callBuiltin scans (by decide) (call_scanl accepted xs)
    have gives := callGives_foldl wellFormed valid calls accepted
    rcases scanArray_cases k e.zero xs with ⟨none, none'⟩ | ⟨x, ys, fold, scan, length, each⟩
    · rw [none'] at folded
      rw [none] at scanned
      have gives := gives xs
      rw [none'] at gives
      exact .inr (.inl ⟨folded, scanned, gives⟩)
    · rw [fold] at folded
      rw [scan] at scanned
      refine .inr (.inr ⟨x, ys, folded, scanned,
        listsFolds_of_scanArray wellFormed valid calls accepted length each, ?_, ?_⟩)
      · intro y last
        rw [List.getLast?_eq_getElem?, length] at last
        obtain ⟨lt, -⟩ := List.getElem?_eq_some_iff.mp last
        have whole := each (xs.length - 1) (length ▸ lt)
        rw [Nat.sub_add_cancel (Nat.one_le_of_lt (length ▸ lt)), List.take_length, fold] at whole
        exact Option.some.inj (last.symm.trans whole)
      · intro i
        cases beginning : foldArray k e.zero (xs.take i) with
        | none => cases (foldArray_eq_none beginning).symm.trans fold
        | some y =>
          have gives := gives (xs.take i)
          rw [beginning] at gives
          exact ⟨y, gives⟩

/-- The scan of an array by a builtin gives the folds of all its beginnings. It is accepted where
the fold is, and fails where the fold fails, which is where the fold of some beginning fails, and in
no other way. Otherwise it gives an array of the same length and element type: each item is the fold
of the beginning up to its place, so the first is the first item of the array, the last is the fold
of the array, and each is the builtin called with the item before it and the item of the array in
its place. For an empty array the two are refused alike, or neither fails: the fold gives the
default of the element type, and the scan gives the empty array. -/
theorem scanl_lists_foldl
    (scans : Calls s' g v "scanl" [.function op, .datum (.array e xs)]) :
    ((∃ t, callBuiltin f w s = .error (.error (.noMatchingOverload f w)) t) ↔
      ∃ t, callBuiltin g v s' = .error (.error (.noMatchingOverload g v)) t) ∧
    ((∃ t, callBuiltin f w s = .error (.error (.operation .divisionByZero)) t) ↔
      ∃ t, callBuiltin g v s' = .error (.error (.operation .divisionByZero)) t) ∧
    ((∃ t, callBuiltin g v s' = .error (.error (.operation .divisionByZero)) t) ↔
      ∃ i ≤ xs.length, CallGives s "foldl" [.function op, .datum (.array e (xs.take i))]
        (.error .divisionByZero)) ∧
    (∀ failure t, callBuiltin g v s' = .error failure t →
      failure = .error (.noMatchingOverload g v) ∨
      failure = .error (.operation .divisionByZero)) ∧
    (xs = [] →
      (callBuiltin f w s = .error (.error (.noMatchingOverload f w)) s ∧
        callBuiltin g v s' = .error (.error (.noMatchingOverload g v)) s') ∨
      (ComesTo (callBuiltin f w s) (.ok (.scalar e e.zero)) ∧
        ComesTo (callBuiltin g v s') (.ok (.array e [])))) ∧
    ∀ u t, callBuiltin g v s' = .ok u t → ∃ x ys, ComesTo (callBuiltin f w s) (.ok (.scalar e x)) ∧
      t.get? u = some (.datum (.array e ys)) ∧ ListsFolds s op e xs ys ∧
      ∀ y, ys.getLast? = some y → y = x := by
  have empty := fun nil => foldl_and_scanl_of_eq_nil nil calls scans
  rcases scanl_cases wellFormed valid calls scans with
    ⟨folded, scanned, rejected⟩ | ⟨folded, scanned, gives⟩ |
      ⟨x, ys, folded, scanned, lists, last, beginnings⟩
  · rw [folded, scanned] at empty ⊢
    refine ⟨⟨fun _ => ⟨s', rfl⟩, fun _ => ⟨s, rfl⟩⟩, ⟨nofun, nofun⟩, ⟨nofun, ?_⟩, ?_, empty, nofun⟩
    · rintro ⟨i, -, gives⟩
      obtain ⟨s₁, f₁, w₁, -, -, calls₁⟩ := gives.exists_calls
      have comes := gives.comesTo calls₁
      rw [callBuiltin_eq_error calls₁ (by decide) (call_eq_none_of_operator? rejected)] at comes
      cases comes
    · rintro _ _ ⟨⟩
      exact .inl rfl
  · obtain ⟨t, folded⟩ := folded.exists_eq_error
    obtain ⟨t', scanned⟩ := scanned.exists_eq_error
    rw [folded, scanned] at empty ⊢
    refine ⟨⟨nofun, nofun⟩, ⟨fun _ => ⟨t', rfl⟩, fun _ => ⟨t, rfl⟩⟩,
      ⟨fun _ => ⟨xs.length, Nat.le_refl _, by rwa [List.take_length]⟩, fun _ => ⟨t', rfl⟩⟩, ?_,
      empty, nofun⟩
    rintro _ _ ⟨⟩
    exact .inr rfl
  · obtain ⟨u, t, eq, -⟩ := folded.exists_eq_ok
    obtain ⟨u', t', eq', found⟩ := scanned.exists_eq_ok
    rw [eq'] at empty ⊢
    refine ⟨⟨?_, nofun⟩, ⟨?_, nofun⟩, ⟨nofun, ?_⟩, ?_, empty, ?_⟩
    · rintro ⟨t, failed⟩
      cases eq.symm.trans failed
    · rintro ⟨t, failed⟩
      cases eq.symm.trans failed
    · rintro ⟨i, -, fails⟩
      obtain ⟨y, gives⟩ := beginnings i
      cases gives.unique fails
    · rintro _ _ ⟨⟩
    · rintro _ _ ⟨⟩
      exact ⟨x, ys, folded, found, lists, last⟩

end Scan

/-- The quotients that two divisors lead to, one after the other. -/
theorem scanl_lists_foldl_quotients : ∃ s,
    s = (Source.parse .empty "foldl [div (8 2 2)] scanl [div (8 2 2)]").2 ∧
    ∃ u t ys, callBuiltin (.name 2) (.tuple 1) s = .ok u t ∧
      t.get? u = some (.datum (.array .int ys)) ∧ ListsFolds s "div" .int [8, 2, 2] ys := by
  have wellFormed :=
    (Store.Reachable.empty.parse "foldl [div (8 2 2)] scanl [div (8 2 2)]").wellFormed
  have shape : (fun s : Store => s.bindings = [] ∧ s.names = #["foldl", "div", "scanl", "div"] ∧
      (s.columns .int).arrays = #[[8, 2, 2], [8, 2, 2]] ∧
      s.tuples = #[.unconnected [.name 1, .array .int 0], .unconnected [.name 3, .array .int 1]] ∧
      ((callBuiltin (.name 2) (.tuple 1)).result? s).isSome = true)
      (Source.parse .empty "foldl [div (8 2 2)] scanl [div (8 2 2)]").2 := by
    decide +kernel
  refine ⟨_, rfl, ?_⟩
  revert wellFormed shape
  generalize (Source.parse .empty "foldl [div (8 2 2)] scanl [div (8 2 2)]").2 = s
  rintro wellFormed ⟨bindings, names, arrays, tuples, succeeded⟩
  obtain ⟨valid, folds⟩ := calls_of_unbound (f := 0) (i := 0) (e := .int) wellFormed bindings
    (by rw [names]; rfl) (by rw [tuples]; rfl) (by rw [names]; rfl) (by rw [arrays]; rfl)
  obtain ⟨-, scans⟩ := calls_of_unbound (f := 2) (i := 1) (e := .int) wellFormed bindings
    (by rw [names]; rfl) (by rw [tuples]; rfl) (by rw [names]; rfl) (by rw [arrays]; rfl)
  obtain ⟨-, -, -, -, -, results⟩ := scanl_lists_foldl wellFormed valid folds scans
  obtain ⟨u, t, result⟩ := exists_eq_ok succeeded
  obtain ⟨x, ys, -, found, lists, -⟩ := results u t result
  exact ⟨u, t, ys, result, found, lists⟩

end Tacit.Eval
