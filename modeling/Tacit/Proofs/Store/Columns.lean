import Tacit.Proofs.Store.Growth

/-!
The columns of a store, as lists of values. Making values one after the other appends them to the
columns of their kinds, in order, and does nothing else.

* `column_create`, `column_createAll`: what new values append to a column.
* `appends_create`: what one new value changes, and what it leaves as it is.
* `growsTo_createAll`, `bindings_createAll`, `pending_createAll`: the rest stays as it is.
-/

namespace Tacit

namespace Store

/-- The values of a kind, in the order in which they were made. The two markers are no values. -/
def column (s : Store) : Kind → List Value
  | .scalar e => (s.columns e).scalars.toList.map fun x => .datum (.scalar e x)
  | .array e => (s.columns e).arrays.toList.map fun xs => .datum (.array e xs)
  | .name => s.names.toList.map .name
  | .tuple => s.tuples.toList.map .tuple
  | .executor => s.executors.toList.map .executor
  | .block => s.blocks.toList.map .block
  | .placeholder => []
  | .assignment => []

def createAll (s : Store) (values : List Value) : Store :=
  values.foldl (fun s v => (s.create v).2) s

@[simp] theorem createAll_nil (s : Store) : s.createAll [] = s := rfl

@[simp] theorem createAll_cons (s : Store) (v : Value) (values : List Value) :
    s.createAll (v :: values) = (s.create v).2.createAll values := rfl

@[simp] theorem createAll_append (s : Store) (values later : List Value) :
    s.createAll (values ++ later) = (s.createAll values).createAll later :=
  List.foldl_append

/-- A new value comes last in the column of its kind, and in no other. -/
theorem column_create (s : Store) (v : Value) (k : Kind) :
    (s.create v).2.column k = s.column k ++ [v].filter (·.kind = k) := by
  rcases v with (⟨e, x⟩ | ⟨e, xs⟩) | text | t | words | words
  case datum.scalar =>
    cases k with
    | scalar e' =>
      by_cases same : e' = e
      · subst same
        simp [create, column, Columns.pushScalar, Value.kind]
      · simp [create, column, columns_modifyColumns_of_ne _ same, Value.kind, Ne.symm same]
    | array e' =>
      by_cases same : e' = e
      · subst same
        simp [create, column, Columns.pushScalar, Value.kind]
      · simp [create, column, columns_modifyColumns_of_ne _ same, Value.kind]
    | _ => cases e <;> simp [create, column, modifyColumns, Value.kind]
  case datum.array =>
    cases k with
    | scalar e' =>
      by_cases same : e' = e
      · subst same
        simp [create, column, Columns.pushArray, Value.kind]
      · simp [create, column, columns_modifyColumns_of_ne _ same, Value.kind]
    | array e' =>
      by_cases same : e' = e
      · subst same
        simp [create, column, Columns.pushArray, Value.kind]
      · simp [create, column, columns_modifyColumns_of_ne _ same, Value.kind, Ne.symm same]
    | _ => cases e <;> simp [create, column, modifyColumns, Value.kind]
  all_goals
    cases k with
    | scalar e => cases e <;> simp [create, column, columns, Value.kind]
    | array e => cases e <;> simp [create, column, columns, Value.kind]
    | _ => simp [create, column, Value.kind]

/-- The value comes last in the column of its kind, the word is its slot there, and nothing else has
changed. -/
structure Appends (s : Store) (v : Value) (w : Word) (s' : Store) : Prop where
  kind : w.kind = v.kind
  index : w.index = (s.column v.kind).length
  column : s'.column v.kind = s.column v.kind ++ [v]
  others : ∀ k, k ≠ v.kind → s'.column k = s.column k
  bindings : s'.bindings = s.bindings
  pending : s'.pending = s.pending

/-- Making a word appends its value and does nothing else. -/
theorem appends_create (s : Store) (v : Value) : s.Appends v (s.create v).1 (s.create v).2 where
  kind := kind_create s v
  index := by
    rcases v with (⟨e, x⟩ | ⟨e, xs⟩) | _ | _ | _ | _ <;>
      simp [create, column, Value.kind, Word.index]
  column := by simp [column_create]
  others := by
    intro k ne
    simp [column_create, Ne.symm ne]
  bindings := bindings_create s v
  pending := pending_create s v

/-- Making many words appends to each column the values of its kind, in their order. -/
theorem column_createAll (s : Store) (values : List Value) (k : Kind) :
    (s.createAll values).column k = s.column k ++ values.filter (·.kind = k) := by
  induction values generalizing s with
  | nil => simp
  | cons v values ih =>
    rw [createAll_cons, ih, column_create, List.append_assoc, ← List.filter_append,
      List.singleton_append]

theorem bindings_createAll (s : Store) (values : List Value) :
    (s.createAll values).bindings = s.bindings := by
  induction values generalizing s with
  | nil => rfl
  | cons v values ih => rw [createAll_cons, ih, bindings_create]

theorem pending_createAll (s : Store) (values : List Value) :
    (s.createAll values).pending = s.pending := by
  induction values generalizing s with
  | nil => rfl
  | cons v values ih => rw [createAll_cons, ih, pending_create]

theorem growsTo_createAll (s : Store) (values : List Value) : s.GrowsTo (s.createAll values) := by
  induction values generalizing s with
  | nil => exact .refl s
  | cons v values ih => exact (growsTo_create s v).trans (ih _)

end Store

end Tacit
