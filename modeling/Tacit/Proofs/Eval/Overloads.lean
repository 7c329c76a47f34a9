import Tacit.Proofs.Builtin.Resolution
import Tacit.Proofs.Eval.Calls

/-!
Calls of builtins, and the overloads that they use. Which overload it is depends on the kinds of the
arguments alone; the data tell no more than whether a division is undefined, or whether two arrays
differ in length.

* `ends_of_decides`: how a call ends that a candidate decides.
* `callBuiltin_decided_by_kinds`: soundness of the choice, and calls on arguments of the same kinds.
-/

namespace Tacit

/-- A word is of the kind of its value. -/
theorem Store.kind_eq_of_get? {s : Store} {w : Word} {value : Value} (h : s.get? w = some value) :
    w.kind = value.kind := by
  cases w with
  | placeholder | assignment => cases h
  | _ =>
    obtain ⟨_, -, rfl⟩ := Option.map_eq_some_iff.mp h
    rfl

namespace Eval

open Builtin

/-- A word in a store is the result of the overload that a candidate selects. -/
structure Uses (s : Store) (v : Word) (name : String) (args : List Argument) (c : List Reading)
    (o : Overload) : Prop where
  decides : Decides name args c o
  gives : ∃ d, o.operation.apply? args = some (.ok d) ∧ s.get? v = some (.datum d)
  kind : v.kind = resultKind o c
  /-- An array is taken as an array, or as the elements, of its own type. -/
  arrays : ∀ (p : Nat) (e : Elem) (xs : List e.Carrier), args[p]? = some (.datum (.array e xs)) →
    o.signature.params[p]? = some (.array e) ∨ o.signature.params[p]? = some (.scalar e)

variable {s : Store} {f w : Word} {name : String} {args : List Argument} {c : List Reading}
  {o : Overload}

/-- The parameters of a selected overload for the arrays among the arguments. -/
theorem array_params_of_select? (mem : c ∈ candidates args) (selected : select? name c = some o)
    {p : Nat} {e : Elem} {xs : List e.Carrier} (arg : args[p]? = some (.datum (.array e xs))) :
    o.signature.params[p]? = some (.array e) ∨ o.signature.params[p]? = some (.scalar e) := by
  rw [(select?_eq_some selected).1, List.getElem?_map]
  rcases rel_cases (getElem?_related (forall₂_of_mem_candidates mem) p) with
    ⟨-, none⟩ | ⟨r, x, picked, found, read⟩
  · cases none.symm.trans arg
  · cases found.symm.trans arg
    rw [picked]
    rcases mem_readings_array.mp read with rfl | rfl
    · exact .inl rfl
    · exact .inr rfl

/-- The ways in which a call ends that a candidate decides. -/
inductive Ends (s : Store) (f w : Word) (name : String) (args : List Argument) (c : List Reading)
    (o : Overload) : EStateM.Result Failure Store Word → Prop where
  | uses {v : Word} {s' : Store} : Uses s' v name args c o → Ends s f w name args c o (.ok v s')
  | divisionByZero {s' : Store} :
      o.operation.apply? args = some (.error .divisionByZero) →
      Ends s f w name args c o (.error (.error (.operation .divisionByZero)) s')
  | lengths : (∀ n, ¬ Aligned args n) →
      Ends s f w name args c o (.error (.error (.noMatchingOverload f w)) s)

/-- A call that a candidate decides uses its overload, if arrays are of one length and nothing is
divided by zero. -/
theorem Ends.exists_uses {result : EStateM.Result Failure Store Word}
    (ends : Ends s f w name args c o result) (aligned : ∃ n, Aligned args n)
    (nonzero : o.operation.apply? args ≠ some (.error .divisionByZero) ∨
      ∀ t, result ≠ .error (.error (.operation .divisionByZero)) t) :
    ∃ v t, result = .ok v t ∧ Uses t v name args c o := by
  cases ends with
  | uses uses => exact ⟨_, _, rfl, uses⟩
  | divisionByZero undefined =>
    rcases nonzero with defined | nonzero
    · exact absurd undefined defined
    · exact absurd rfl (nonzero _)
  | lengths never =>
    obtain ⟨n, aligned⟩ := aligned
    exact absurd aligned (never n)

/-- A call ends as the candidate that decides it says. -/
theorem ends_of_decides (calls : Calls s f w name args) (builtin : isBuiltin name = true)
    (decides : Decides name args c o) : Ends s f w name args c o (callBuiltin f w s) := by
  obtain ⟨outcome, applied⟩ := exists_apply?_of_select? decides.mem decides.selected
  have settles := call_of_decides decides applied
  cases ofKind_of_select? decides.mem decides.selected applied with
  | @ok d kind =>
    have comes := comesTo_callBuiltin calls builtin settles
    revert comes
    generalize callBuiltin f w s = result
    rintro ⟨found⟩
    refine .uses ⟨decides, ⟨d, applied, found⟩, ?_, ?_⟩
    · exact (Store.kind_eq_of_get? found).trans kind
    · exact fun p e xs => array_params_of_select? decides.mem decides.selected
  | divisionByZero =>
    obtain ⟨s', failed⟩ := (comesTo_callBuiltin calls builtin settles).exists_eq_error
    rw [failed]
    exact .divisionByZero applied
  | lengthMismatch eq differ =>
    rw [callBuiltin_eq_error calls builtin settles]
    refine .lengths fun n aligned => ?_
    subst eq
    exact differ ((aligned _ (.head _)).trans (aligned _ (.tail _ (.head _))).symm)

/-- A call of a builtin on any arguments. It uses the overload of the first candidate that selects
one, which is the one that reads the data as of their own types if that one does; the result is of
the kind that this overload has for the candidate. It does so unless the operation divides by zero
or finds two arrays that differ in length. Where a candidate pairs two arrays that differ in length,
no other candidate selects an overload, so that the call fails for want of one and never for the
lengths. Another call of the builtin, in any store, on arguments of the same kinds has a result of
the same kind or fails for want of an overload as well, apart from arrays that differ in length and
from division by zero. -/
theorem callBuiltin_decided_by_kinds (calls : Calls s f w name args)
    (builtin : isBuiltin name = true) :
    (∀ v s', callBuiltin f w s = .ok v s' → ∃ c o, Uses s' v name args c o) ∧
    (∀ c o v s', List.Forall₂ (fun r x => x.Own r) c args → select? name c = some o →
      callBuiltin f w s = .ok v s' → Uses s' v name args c o) ∧
    (∀ c o, Decides name args c o → (∃ n, Aligned args n) →
      o.operation.apply? args ≠ some (.error .divisionByZero) →
      ∃ v s', callBuiltin f w s = .ok v s' ∧ Uses s' v name args c o) ∧
    (∀ c o left right, c ∈ candidates args → select? name c = some o →
      o.operation.apply? args = some (.error (.lengthMismatch left right)) →
      (∀ c' ∈ candidates args, (select? name c').isSome → c' = c) ∧
      callBuiltin f w s = .error (.error (.noMatchingOverload f w)) s) ∧
    (∀ left right s', callBuiltin f w s ≠
      .error (.error (.operation (.lengthMismatch left right))) s') ∧
    ∀ s₂ f₂ w₂ args₂, Calls s₂ f₂ w₂ name args₂ → List.Forall₂ Argument.SameKind args args₂ →
      (∃ n, Aligned args n) → (∃ n, Aligned args₂ n) →
      (∀ t, callBuiltin f w s ≠ .error (.error (.operation .divisionByZero)) t) →
      (∀ t, callBuiltin f₂ w₂ s₂ ≠ .error (.error (.operation .divisionByZero)) t) →
      (∃ v t v₂ t₂, callBuiltin f w s = .ok v t ∧ callBuiltin f₂ w₂ s₂ = .ok v₂ t₂ ∧
        v.kind = v₂.kind) ∨
      (callBuiltin f w s = .error (.error (.noMatchingOverload f w)) s ∧
        callBuiltin f₂ w₂ s₂ = .error (.error (.noMatchingOverload f₂ w₂)) s₂) := by
  have uses {c : List Reading} {o : Overload} {v : Word} {s' : Store}
      (decides : Decides name args c o) (result : callBuiltin f w s = .ok v s') :
      Uses s' v name args c o := by
    have ends := ends_of_decides calls builtin decides
    rw [result] at ends
    cases ends with
    | uses uses => exact uses
  refine ⟨?_, ?_, ?_, ?_, ?_, ?_⟩
  · intro v s' result
    rcases exists_decides_or name args with ⟨c, o, decides⟩ | unselected
    · exact ⟨c, o, uses decides result⟩
    · have failed := callBuiltin_eq_error calls builtin (call_eq_none unselected)
      cases failed.symm.trans result
  · exact fun c o v s' own selected result => uses (decides_of_own own selected) result
  · intro c o decides aligned defined
    exact (ends_of_decides calls builtin decides).exists_uses aligned (.inl defined)
  · intro c o left right mem selected applied
    have unique : ∀ c' ∈ candidates args, ∀ {o'}, select? name c' = some o' → c' = c :=
      unique_of_lengthMismatch mem selected applied
    have settles := call_of_decides (.of_unique mem selected unique) applied
    refine ⟨fun c' mem' some => ?_, callBuiltin_eq_error calls builtin settles⟩
    obtain ⟨o', selected'⟩ := Option.isSome_iff_exists.mp some
    exact unique c' mem' selected'
  · intro left right s' failed
    rcases exists_decides_or name args with ⟨c, o, decides⟩ | unselected
    · have ends := ends_of_decides calls builtin decides
      rw [failed] at ends
      cases ends
    · cases (callBuiltin_eq_error calls builtin (call_eq_none unselected)).symm.trans failed
  · intro s₂ f₂ w₂ args₂ calls₂ same aligned aligned₂ nonzero nonzero₂
    rcases exists_decides_or name args with ⟨c, o, decides⟩ | unselected
    · obtain ⟨v, t, result, uses⟩ :=
        (ends_of_decides calls builtin decides).exists_uses aligned (.inr nonzero)
      obtain ⟨v₂, t₂, result₂, uses₂⟩ :=
        (ends_of_decides calls₂ builtin (decides.of_sameKind same)).exists_uses aligned₂
          (.inr nonzero₂)
      exact .inl ⟨v, t, v₂, t₂, result, result₂, uses.kind.trans uses₂.kind.symm⟩
    · have unselected₂ := unselected
      rw [candidates_eq_of_sameKind same] at unselected₂
      exact .inr ⟨callBuiltin_eq_error calls builtin (call_eq_none unselected),
        callBuiltin_eq_error calls₂ builtin (call_eq_none unselected₂)⟩

/-- Two sums of an integer and an array of integers, which is not as long in both. -/
theorem callBuiltin_decided_by_kinds_sums : ∃ s,
    s = (Source.parse .empty "add [1 (2 3)]\nadd [7 (5)]").2 ∧ ∃ v t v₂ t₂,
    callBuiltin (.name 0) (.tuple 0) s = .ok v t ∧
    callBuiltin (.name 1) (.tuple 1) s = .ok v₂ t₂ ∧ v.kind = v₂.kind ∧
    ∃ c o, Uses t v "add" [.datum (.scalar .int 1), .datum (.array .int [2, 3])] c o := by
  have wellFormed := (Store.Reachable.empty.parse "add [1 (2 3)]\nadd [7 (5)]").wellFormed
  have shape : (fun s : Store => s.names = #["add", "add"] ∧ (s.columns .int).scalars = #[1, 7] ∧
      (s.columns .int).arrays = #[[2, 3], [5]] ∧
      s.tuples = #[.unconnected [.scalar .int 0, .array .int 0],
        .unconnected [.scalar .int 1, .array .int 1]] ∧
      ((callBuiltin (.name 0) (.tuple 0)).result? s).isSome = true ∧
      ((callBuiltin (.name 1) (.tuple 1)).result? s).isSome = true)
      (Source.parse .empty "add [1 (2 3)]\nadd [7 (5)]").2 := by
    decide +kernel
  refine ⟨_, rfl, ?_⟩
  revert wellFormed shape
  generalize (Source.parse .empty "add [1 (2 3)]\nadd [7 (5)]").2 = s
  rintro wellFormed ⟨names, ints, arrays, tuples, succeeds, succeeds₂⟩
  obtain ⟨c, same⟩ := Store.Shows.of_wellFormed wellFormed
  have calls : ∀ {f i j k : Nat} {x : Int32} {xs : List Int32}, s.names[f]? = some "add" →
      s.tuples[i]? = some (.unconnected [.scalar .int j, .array .int k]) →
      (s.columns .int).scalars[j]? = some x → (s.columns .int).arrays[k]? = some xs →
      Calls s (.name f) (.tuple i) "add" [.datum (.scalar .int x), .datum (.array .int xs)] := by
    intro f i j k x xs called tuple scalar array
    refine ⟨Store.name_eq_ok called, ?_⟩
    rw [arguments_eq_ok same
      (.tuple tuple .none (.cons (.scalar scalar) (.cons (.array array) .nil)))]
    rfl
  have one : Calls s (.name 0) (.tuple 0) "add"
      [.datum (.scalar .int 1), .datum (.array .int [2, 3])] :=
    calls (by rw [names]; rfl) (by rw [tuples]; rfl) (by rw [ints]; rfl) (by rw [arrays]; rfl)
  have seven : Calls s (.name 1) (.tuple 1) "add"
      [.datum (.scalar .int 7), .datum (.array .int [5])] :=
    calls (by rw [names]; rfl) (by rw [tuples]; rfl) (by rw [ints]; rfl) (by rw [arrays]; rfl)
  obtain ⟨v, t, result⟩ := exists_eq_ok succeeds
  obtain ⟨v₂, t₂, result₂⟩ := exists_eq_ok succeeds₂
  obtain ⟨uses, -, -, -, -, alike⟩ := callBuiltin_decided_by_kinds one (by decide +kernel)
  have kinds : List.Forall₂ Argument.SameKind
      [.datum (.scalar .int 1), .datum (.array .int [2, 3])]
      [.datum (.scalar .int 7), .datum (.array .int [5])] :=
    .cons (.datum rfl) (.cons (.datum rfl) .nil)
  rcases alike s _ _ _ seven kinds ⟨2, by simp [Aligned, Argument.HasLength]⟩
    ⟨1, by simp [Aligned, Argument.HasLength]⟩ (by simp [result]) (by simp [result₂]) with
    ⟨v', t', v₂', t₂', eq, eq₂, kind⟩ | ⟨failed, -⟩
  · cases eq.symm.trans result
    cases eq₂.symm.trans result₂
    exact ⟨v, t, v₂, t₂, result, result₂, kind, uses v t result⟩
  · cases failed.symm.trans result

end Eval

end Tacit
