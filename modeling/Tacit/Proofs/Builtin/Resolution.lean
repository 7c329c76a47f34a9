import Tacit.Proofs.Builtin.Dispatch
import Tacit.Word

/-!
Which overload a call uses, and of what kind its result is. A candidate that selects an overload
decides the call, whatever the data are: the search goes on only after arrays of different lengths,
and then there is no other candidate to be found.

* `ofKind_of_select?`: what the overload gives is of the kind that its result type and the candidate
  tell.
* `unique_of_lengthMismatch`: no other candidate is left where two arrays differ in length.
* `call_of_decides`: the first candidate that selects an overload settles the call.
* `decides_of_own`: no candidate comes before one that reads all data as of their own types.
-/

namespace Tacit.Builtin

/-! ### Kinds -/

/-- The kind of the values of a type. Functions are given by their names. -/
def ArgType.kind : ArgType → Kind
  | .scalar e => .scalar e
  | .array e => .array e
  | .function _ _ => .name

def expandedKind : Kind → Kind
  | .scalar e => .array e
  | kind => kind

def resultKind (o : Overload) (candidate : List Reading) : Kind :=
  if candidate.any Reading.expanded then expandedKind o.signature.result.kind
  else o.signature.result.kind

/-- An outcome for arguments is a datum of a kind, unless it is the error of an undefined operation
or of two arrays that differ in length. -/
inductive OfKind (kind : Kind) (args : List Argument) : Except OperationError Datum → Prop where
  | ok {d : Datum} : (Value.datum d).kind = kind → OfKind kind args (.ok d)
  | divisionByZero : OfKind kind args (.error .divisionByZero)
  | lengthMismatch {e e' : Elem} {xs : List e.Carrier} {ys : List e'.Carrier} :
      args = [.datum (.array e xs), .datum (.array e' ys)] → xs.length ≠ ys.length →
      OfKind kind args (.error (.lengthMismatch xs.length ys.length))

variable {name : String} {args : List Argument} {c c' : List Reading} {o o' : Overload}
  {outcome : Except OperationError Datum}

namespace OfKind

variable {kind : Kind}

theorem defined {α : Type} (f : α → Datum) (of : ∀ a, (Value.datum (f a)).kind = kind)
    (x : Option α) : OfKind kind args (Builtin.defined (x.map f)) := by
  cases x with
  | none => exact .divisionByZero
  | some a => exact .ok (of a)

end OfKind

/-- An operation on two scalars gives an array if one of its operands is an array, and else a
scalar. -/
theorem ofKind_zip {a r : Elem} {f : a.Carrier → a.Carrier → Option r.Carrier} {x y : Argument}
    {p q : Operand a.Carrier} (hx : x.operand? a = some p) (hy : y.operand? a = some q) :
    OfKind (if x.isArray || y.isArray then .array r else .scalar r) [x, y]
      ((Operand.zip f p q).map (·.datum r)) := by
  have defined {α : Type} {kind : Kind} (g : α → Operand r.Carrier)
      (of : ∀ z, (Value.datum ((g z).datum r)).kind = kind) (z : Option α) :
      OfKind kind [x, y] ((Builtin.defined (z.map g)).map (·.datum r)) := by
    cases z with
    | none => exact .divisionByZero
    | some z => exact .ok (of z)
  rw [← Argument.isMany_eq_isArray hx, ← Argument.isMany_eq_isArray hy]
  cases p with
  | one u =>
    cases q with
    | one v => exact defined .one (fun _ => rfl) _
    | many vs => exact defined .many (fun _ => rfl) _
  | many us =>
    cases q with
    | one v => exact defined .many (fun _ => rfl) _
    | many vs =>
      by_cases same : us.length = vs.length
      · rw [Operand.zip, if_pos same]
        exact defined .many (fun _ => rfl) _
      · rw [Operand.zip, if_neg same]
        rcases Argument.operand?_eq_some hx with ⟨_, _, _, _, _, eq⟩ | ⟨xs, rfl, eq⟩
        · cases eq
        rcases Argument.operand?_eq_some hy with ⟨_, _, _, _, _, eq'⟩ | ⟨ys, rfl, eq'⟩
        · cases eq'
        cases eq
        cases eq'
        exact .lengthMismatch rfl same

/-! ### Results -/

/-- The operation that is selected takes the types that the arguments are read as. -/
theorem params_eq_of_select? (selected : select? name c = some o) :
    o.operation.signature.params = c.map Reading.type :=
  (select?_eq_some selected).1

/-- Arrays are expanded where a scalar is asked for, and nothing else is. -/
theorem expanded_eq {x : Argument} {r : Reading} (mem : r ∈ x.readings) :
    r.expanded = (r.type.isScalar && x.isArray) := by
  rcases reading_cases mem with ⟨_, _, _, rfl, rfl, -⟩ | ⟨_, _, rfl, rfl | rfl⟩ |
    ⟨_, _, rfl, -, rfl⟩ <;> rfl

/-- What a selected overload gives. -/
theorem ofKind_of_select? (mem : c ∈ candidates args) (selected : select? name c = some o)
    (applied : o.operation.apply? args = some outcome) : OfKind (resultKind o c) args outcome := by
  have params := params_eq_of_select? selected
  have readings := forall₂_of_mem_candidates mem
  have fits := fits_of_select? mem selected
  rw [resultKind, Overload.signature]
  generalize o.operation = op at params fits applied ⊢
  cases op with
  | map a r f =>
    obtain ⟨q, x, rfl, rfl, read, type⟩ := one_reading params readings
    obtain ⟨p, operand⟩ := operand?_of_fits (List.forall₂_cons.mp fits).1
    cases (apply_map operand).symm.trans applied
    refine .ok ?_
    have expanded : q.expanded = p.isMany := by
      rw [expanded_eq read, type, Argument.isMany_eq_isArray operand]
      rfl
    simp only [List.any_cons, List.any_nil, Bool.or_false, expanded]
    cases p <;> rfl
  | zip a r f =>
    obtain ⟨q, q', x, y, rfl, rfl, ⟨read, type⟩, read', type'⟩ := two_readings params readings
    obtain ⟨first, rest⟩ := List.forall₂_cons.mp fits
    obtain ⟨p, operand⟩ := operand?_of_fits first
    obtain ⟨p', operand'⟩ := operand?_of_fits (List.forall₂_cons.mp rest).1
    cases (apply_zip operand operand').symm.trans applied
    have expanded : [q, q'].any Reading.expanded = (x.isArray || y.isArray) := by
      simp [expanded_eq read, expanded_eq read', type, type', ArgType.isScalar]
    rw [expanded]
    exact ofKind_zip operand operand'
  | generate a r f =>
    obtain ⟨q, x, rfl, rfl, -⟩ := one_reading params readings
    obtain ⟨v, operand⟩ := operand?_of_fits_scalar (List.forall₂_cons.mp fits).1
    simp only [operand, Operation.apply?] at applied
    cases applied
    -- The result is an array, whether the argument is expanded or not.
    exact .ok (by split <;> rfl)
  | collapse | rearrange =>
    obtain ⟨q, x, rfl, rfl, read, type⟩ := one_reading params readings
    obtain ⟨xs, eq, -⟩ := array?_of_fits (List.forall₂_cons.mp fits).1
    simp [eq, Operation.apply?] at applied
    cases applied
    have unexpanded : [q].any Reading.expanded = false := by
      rw [List.any_cons, expanded_eq read, type]
      rfl
    rw [unexpanded]
    exact .ok rfl
  | fold | scan =>
    obtain ⟨q, q', x, y, rfl, rfl, ⟨read, type⟩, read', type'⟩ := two_readings params readings
    obtain ⟨first, rest⟩ := List.forall₂_cons.mp fits
    obtain ⟨f, eq⟩ := operator?_of_fits first
    obtain ⟨xs, eq', -⟩ := array?_of_fits (List.forall₂_cons.mp rest).1
    simp [eq, eq', Operation.apply?] at applied
    subst applied
    have unexpanded : [q, q'].any Reading.expanded = false := by
      rw [List.any_cons, List.any_cons, expanded_eq read, expanded_eq read', type, type']
      rfl
    rw [unexpanded]
    refine .defined _ (fun _ => ?_) _
    rfl

/-! ### Candidates with one overload to select -/

/-- Two arrays are read element by element, if at all. -/
theorem eq_of_select?_of_arrays {e e' : Elem} {xs : List e.Carrier} {ys : List e'.Carrier}
    (mem : c ∈ candidates [.datum (.array e xs), .datum (.array e' ys)])
    (selected : select? name c = some o) : c = [.elements e, .elements e'] := by
  have params := params_eq_of_select? selected
  have readings := forall₂_of_mem_candidates mem
  have elements {e : Elem} {xs : List e.Carrier} {r : Reading} {a : Elem}
      (read : r ∈ (Argument.datum (.array e xs)).readings) (type : r.type = .scalar a) :
      r = .elements e := by
    rcases mem_readings_array.mp read with rfl | rfl
    · cases type
    · rfl
  generalize o.operation = op at params
  cases op with
  | zip =>
    obtain ⟨q, q', x, y, rfl, eq, ⟨read, type⟩, read', type'⟩ := two_readings params readings
    cases eq
    rw [elements read type, elements read' type']
  | map | generate | collapse | rearrange =>
    obtain ⟨_, _, -, eq, -⟩ := one_reading params readings
    cases eq
  | fold | scan =>
    obtain ⟨q, _, x, _, -, eq, ⟨read, type⟩, -⟩ := two_readings params readings
    cases eq
    obtain ⟨_, eq, -⟩ := exists_function_of_type read type
    cases eq

/-- Where a candidate pairs arrays that differ in length, no other selects an overload. -/
theorem unique_of_lengthMismatch {left right : Nat} (mem : c ∈ candidates args)
    (selected : select? name c = some o)
    (applied : o.operation.apply? args = some (.error (.lengthMismatch left right))) :
    ∀ c' ∈ candidates args, ∀ {o'}, select? name c' = some o' → c' = c := by
  cases ofKind_of_select? mem selected applied with
  | lengthMismatch eq =>
    subst eq
    intro c' mem' o' selected'
    rw [eq_of_select?_of_arrays mem' selected', eq_of_select?_of_arrays mem selected]

/-- The name of a function is taken with an array, whose type tells that of the function. -/
theorem eq_of_select?_of_function {f : String} (function : .function f ∈ args)
    (mem : c ∈ candidates args) (selected : select? name c = some o) :
    ∃ e xs, args = [.function f, .datum (.array e xs)] ∧
      c = [.exact (.ofSignature (Operation.operatorSignature e)), .exact (.array e)] := by
  have params := params_eq_of_select? selected
  have readings := forall₂_of_mem_candidates mem
  obtain ⟨r, listed, read⟩ := exists_of_mem_related readings function
  obtain ⟨o', -, rfl⟩ := List.mem_map.mp read
  have taken := List.mem_map_of_mem (f := Reading.type) listed
  rw [← params] at taken
  generalize o.operation = op at params taken
  cases op with
  | fold e | scan e =>
    obtain ⟨q, q', x, y, rfl, rfl, ⟨read, type⟩, read', type'⟩ := two_readings params readings
    obtain ⟨f', rfl, rfl⟩ := exists_function_of_type read type
    obtain ⟨xs, rfl, rfl⟩ := exists_array_of_type read' type'
    have same : f = f' := by simpa using function
    rw [same]
    exact ⟨e, xs, rfl, rfl⟩
  | _ => simp [Operation.signature, Reading.exact, ArgType.ofSignature] at taken

/-! ### The search -/

/-- A candidate decides a call by the overload that it selects: none of the candidates before it
selects one. -/
structure Decides (name : String) (args : List Argument) (c : List Reading) (o : Overload) :
    Prop where
  selected : select? name c = some o
  first : ∃ before after, candidates args = before ++ c :: after ∧
    ∀ b ∈ before, select? name b = none

theorem Decides.mem (decides : Decides name args c o) : c ∈ candidates args := by
  obtain ⟨before, after, eq, -⟩ := decides.first
  simp [eq]

/-- A candidate decides the call, or there is none that selects an overload. -/
theorem exists_decides_or (name : String) (args : List Argument) :
    (∃ c o, Decides name args c o) ∨ ∀ c ∈ candidates args, select? name c = none := by
  cases found : (candidates args).find? fun c => (select? name c).isSome with
  | none => exact .inr fun c mem => by simpa using List.find?_eq_none.mp found c mem
  | some c =>
    obtain ⟨some, before, after, eq, earlier⟩ := List.find?_eq_some_iff_append.mp found
    obtain ⟨o, selected⟩ := Option.isSome_iff_exists.mp some
    exact .inl ⟨c, o, selected, before, after, eq, fun b mem => by simpa using earlier b mem⟩

/-- A candidate decides if it is the only one that selects an overload. -/
theorem Decides.of_unique (mem : c ∈ candidates args) (selected : select? name c = some o)
    (unique : ∀ c' ∈ candidates args, ∀ {o'}, select? name c' = some o' → c' = c) :
    Decides name args c o := by
  rcases exists_decides_or name args with ⟨c', o', decides⟩ | none
  · obtain rfl := unique c' decides.mem decides.selected
    cases decides.selected.symm.trans selected
    exact decides
  · cases (none c mem).symm.trans selected

/-- The candidate that decides a call settles it. -/
theorem call_of_decides (decides : Decides name args c o)
    (applied : o.operation.apply? args = some outcome) : call name args = settled outcome := by
  have mem := decides.mem
  have attempted := attempt_eq_settled decides.selected applied
  obtain ⟨listed, params⟩ := of_find?_eq_some (find?_of_select? decides.selected).1
  have le : args.length ≤ maxArity name := by
    have length := (forall₂_of_mem_candidates mem).length_eq
    simpa [params, length] using length_params_le_maxArity listed
  rw [call_eq, if_pos le]
  cases ofKind_of_select? mem decides.selected applied with
  | lengthMismatch =>
    -- The search goes on, but only this candidate selects an overload.
    refine List.findSome?_eq_none_iff.mpr fun c' mem' => ?_
    cases selected' : select? name c' with
    | none => exact attempt_eq_none selected'
    | some o' =>
      obtain rfl := unique_of_lengthMismatch mem decides.selected applied c' mem' selected'
      exact attempted
  | ok | divisionByZero =>
    obtain ⟨before, after, eq, earlier⟩ := decides.first
    have none : before.findSome? (attempt name args) = none :=
      List.findSome?_eq_none_iff.mpr fun b mem => attempt_eq_none (earlier b mem)
    rw [eq, List.findSome?_append, none, Option.none_or, List.findSome?_cons, attempted]
    rfl

/-! ### Arguments alike -/

/-- A reading of an argument as of its own type. The name of a function has no type of its own. -/
def Argument.Own (x : Argument) (r : Reading) : Prop :=
  match x with
  | .datum (.scalar e _) => r = .exact (.scalar e)
  | .datum (.array e _) => r = .exact (.array e)
  | x => r ∈ x.readings

/-- The own type of an argument is one of the ways to read it. -/
theorem Argument.Own.mem {x : Argument} {r : Reading} (own : x.Own r) : r ∈ x.readings := by
  rcases x with (⟨e, _⟩ | ⟨e, _⟩) | f | _
  · cases e <;> exact own ▸ .head _
  · exact own ▸ .head _
  · exact own
  · exact own

/-- Data are read as of their own types first. -/
theorem Argument.Own.head?_eq {d : Datum} {r : Reading} (own : (Argument.datum d).Own r) :
    (Argument.datum d).readings.head? = some r := by
  rcases d with ⟨e, _⟩ | ⟨e, _⟩
  · cases e <;> exact own ▸ rfl
  · exact own ▸ rfl

/-- Of the candidates that read all data as of their own types, one that selects an overload decides
the call. -/
theorem decides_of_own (own : List.Forall₂ (fun r x => x.Own r) c args)
    (selected : select? name c = some o) : Decides name args c o := by
  have mem : c ∈ candidates args := mem_candidates_iff.mpr (own.imp fun _ _ => Argument.Own.mem)
  by_cases function : ∃ f, .function f ∈ args
  · obtain ⟨f, function⟩ := function
    refine .of_unique mem selected fun c' mem' _ selected' => ?_
    obtain ⟨e, xs, rfl, rfl⟩ := eq_of_select?_of_function function mem selected
    obtain ⟨e', xs', eq, rfl⟩ := eq_of_select?_of_function function mem' selected'
    cases eq
    rfl
  · have first : List.Forall₂ (fun r options => options.head? = some r) c
        (args.map Argument.readings) := by
      refine List.forall₂_map_right_iff.mpr (related_imp_of_mem (fun r _ x mem own => ?_) own)
      cases x with
      | datum d => exact own.head?_eq
      | function f => exact absurd ⟨f, mem⟩ function
      | other => cases own
    obtain ⟨rest, eq⟩ := choices_eq_cons first
    exact ⟨selected, [], rest, eq, nofun⟩

/-- Arguments of one kind. The names of functions are alike if neither function is a builtin, or if
they are equal. -/
inductive Argument.SameKind : Argument → Argument → Prop where
  | datum {d d' : Datum} : (Value.datum d).kind = (Value.datum d').kind →
      SameKind (.datum d) (.datum d')
  | function {f f' : String} : (isBuiltin f = true ∨ isBuiltin f' = true → f = f') →
      SameKind (.function f) (.function f')
  | other : SameKind .other .other

/-- How an argument is read depends on its kind only. -/
theorem Argument.SameKind.readings_eq {x x' : Argument} (h : x.SameKind x') :
    x.readings = x'.readings := by
  cases h with
  | @datum d d' kind =>
    cases d <;> cases d' <;> cases kind
    · next e _ _ => cases e <;> rfl
    · rfl
  | @function f f' same =>
    by_cases builtin : isBuiltin f = true ∨ isBuiltin f' = true
    · rw [same builtin]
    · simp only [isBuiltin, Bool.not_eq_true', List.isEmpty_eq_false_iff, not_or, not_not]
        at builtin
      rw [readings, readings, builtin.1, builtin.2]
  | other => rfl

/-- Arguments of the same kinds have the same candidates. -/
theorem candidates_eq_of_sameKind {args' : List Argument}
    (same : List.Forall₂ Argument.SameKind args args') : candidates args = candidates args' := by
  have readings : args.map Argument.readings = args'.map Argument.readings := by
    rw [← List.forall₂_eq_eq_eq, List.forall₂_map_left_iff, List.forall₂_map_right_iff]
    exact same.imp fun _ _ => Argument.SameKind.readings_eq
  rw [candidates, readings, candidates]

/-- The candidate that decides depends on the kinds of the arguments only. -/
theorem Decides.of_sameKind {args' : List Argument} (decides : Decides name args c o)
    (same : List.Forall₂ Argument.SameKind args args') : Decides name args' c o := by
  obtain ⟨selected, first⟩ := decides
  rw [candidates_eq_of_sameKind same] at first
  exact ⟨selected, first⟩

end Tacit.Builtin
