import Mathlib.Data.List.Infix
import Tacit.Store

/-!
Growth of a store: everything stays where it is, and new values come after the old ones.

* `growsTo_create`, `growsTo_bind`: what a value or a binding of a free name adds hides nothing.
* `GrowsTo.scalar`, `GrowsTo.tuple` and so on: what a slot holds, it holds ever after.
* `GrowsTo.get?`: the same for what words stand for.
-/

namespace Tacit

structure Columns.GrowsTo {e : Elem} (c c' : Columns e) : Prop where
  scalars : c.scalars.toList <+: c'.scalars.toList
  arrays : c.arrays.toList <+: c'.arrays.toList

namespace Columns.GrowsTo

variable {e : Elem} {c c' c'' : Columns e}

theorem refl (c : Columns e) : c.GrowsTo c := ⟨List.prefix_refl _, List.prefix_refl _⟩

theorem trans (h : c.GrowsTo c') (h' : c'.GrowsTo c'') : c.GrowsTo c'' :=
  ⟨h.scalars.trans h'.scalars, h.arrays.trans h'.arrays⟩

theorem pushScalar (c : Columns e) (x : e.Carrier) : c.GrowsTo (c.pushScalar x) := by
  refine ⟨?_, List.prefix_refl _⟩
  simp [Columns.pushScalar]

theorem pushArray (c : Columns e) (xs : List e.Carrier) : c.GrowsTo (c.pushArray xs) := by
  refine ⟨List.prefix_refl _, ?_⟩
  simp [Columns.pushArray]

end Columns.GrowsTo

/-- The later store holds all that the earlier one holds, in the same places: each column is a
prefix of what it becomes, and each bound name stays bound to its word. -/
structure Store.GrowsTo (s s' : Store) : Prop where
  columns : ∀ e, (s.columns e).GrowsTo (s'.columns e)
  names : s.names.toList <+: s'.names.toList
  tuples : s.tuples.toList <+: s'.tuples.toList
  executors : s.executors.toList <+: s'.executors.toList
  blocks : s.blocks.toList <+: s'.blocks.toList
  bound : ∀ {name w}, s.lookup name = some w → s'.lookup name = some w

namespace Store

variable {s s' s'' : Store}

theorem GrowsTo.refl (s : Store) : s.GrowsTo s :=
  ⟨fun _ => .refl _, List.prefix_refl _, List.prefix_refl _, List.prefix_refl _,
    List.prefix_refl _, fun h => h⟩

theorem GrowsTo.trans (h : s.GrowsTo s') (h' : s'.GrowsTo s'') : s.GrowsTo s'' where
  columns := fun e => (h.columns e).trans (h'.columns e)
  names := h.names.trans h'.names
  tuples := h.tuples.trans h'.tuples
  executors := h.executors.trans h'.executors
  blocks := h.blocks.trans h'.blocks
  bound := fun found => h'.bound (h.bound found)

/-! ### What makes a store grow -/

/-- A store grows as the columns of one element type do. -/
theorem growsTo_modifyColumns (s : Store) (e : Elem) {f : Columns e → Columns e}
    (grows : (s.columns e).GrowsTo (f (s.columns e))) : s.GrowsTo (s.modifyColumns e f) := by
  have columns : ∀ e', (s.columns e').GrowsTo ((s.modifyColumns e f).columns e') := by
    intro e'
    by_cases same : e' = e
    · subst same
      rw [columns_modifyColumns_self]
      exact grows
    · rw [columns_modifyColumns_of_ne s same]
      exact .refl _
  cases e <;> exact ⟨columns, List.prefix_refl _, List.prefix_refl _, List.prefix_refl _,
    List.prefix_refl _, fun h => h⟩

/-- A new value comes after those of its column. -/
theorem growsTo_create (s : Store) (v : Value) : s.GrowsTo (s.create v).2 := by
  rcases v with (⟨e, x⟩ | ⟨e, xs⟩) | text | t | words | words
  case datum.scalar => exact s.growsTo_modifyColumns e (.pushScalar _ x)
  case datum.array => exact s.growsTo_modifyColumns e (.pushArray _ xs)
  case name => exact { GrowsTo.refl s with names := by simp [create] }
  case tuple => exact { GrowsTo.refl s with tuples := by simp [create] }
  case executor => exact { GrowsTo.refl s with executors := by simp [create] }
  case block => exact { GrowsTo.refl s with blocks := by simp [create] }

/-- A new word stands for the value that it was made for. -/
theorem get?_create_self (s : Store) (v : Value) : (s.create v).2.get? (s.create v).1 = some v := by
  rw [get?_create, if_pos rfl]

theorem tuples_create_self (s : Store) (t : Tuple) :
    (s.create (.tuple t)).2.tuples[s.tuples.size]? = some t := by
  simp [create]

/-- A new binding is found by its name, and no other name is bound anew. -/
theorem lookup_bind (s : Store) (name other : String) (w : Word) :
    (s.bind name w).lookup other = if other = name then some w else s.lookup other := by
  by_cases same : other = name
  · subst same
    simp [lookup, bind]
  · simp [lookup, bind, same, Bindings.lookup_insert_of_ne same]

/-- The binding of a free name takes nothing away. -/
theorem growsTo_bind {name : String} (free : s.isBound name = false) (w : Word) :
    s.GrowsTo (s.bind name w) := by
  refine { GrowsTo.refl s with bound := ?_ }
  intro other v found
  rw [lookup_bind, if_neg, found]
  intro same
  subst same
  simp [isBound, found] at free

/-- The flag of a pending assignment is no part of what grows. -/
theorem growsTo_setPending (s : Store) (p : Bool) : s.GrowsTo { s with pending := p } :=
  { GrowsTo.refl s with }

/-! ### What growth keeps -/

private theorem getElem?_of_prefix {α : Type} {xs ys : Array α} {i : Nat} {x : α}
    (grows : xs.toList <+: ys.toList) (h : xs[i]? = some x) : ys[i]? = some x := by
  rw [← Array.getElem?_toList] at h ⊢
  obtain ⟨more, eq⟩ := grows
  obtain ⟨lt, -⟩ := List.getElem?_eq_some_iff.mp h
  rw [← eq, List.getElem?_append_left lt, h]

variable {i : Nat}

theorem GrowsTo.scalar {e : Elem} {x : e.Carrier} (h : s.GrowsTo s')
    (found : (s.columns e).scalars[i]? = some x) : (s'.columns e).scalars[i]? = some x :=
  getElem?_of_prefix (h.columns e).scalars found

theorem GrowsTo.array {e : Elem} {xs : List e.Carrier} (h : s.GrowsTo s')
    (found : (s.columns e).arrays[i]? = some xs) : (s'.columns e).arrays[i]? = some xs :=
  getElem?_of_prefix (h.columns e).arrays found

theorem GrowsTo.name {text : String} (h : s.GrowsTo s') (found : s.names[i]? = some text) :
    s'.names[i]? = some text :=
  getElem?_of_prefix h.names found

/-- A name that was read is read from any later store. -/
theorem GrowsTo.name_eq_ok {w : Word} {text : String} (h : s.GrowsTo s')
    (read : s.name w = .ok text) : s'.name w = .ok text := by
  cases w with
  | name i =>
    cases found : s.names[i]? with
    | none => cases (Store.name_eq_error found).symm.trans read
    | some text' =>
      cases (Store.name_eq_ok found).symm.trans read
      exact Store.name_eq_ok (h.name found)
  | _ => cases read

theorem GrowsTo.tuple {t : Tuple} (h : s.GrowsTo s') (found : s.tuples[i]? = some t) :
    s'.tuples[i]? = some t :=
  getElem?_of_prefix h.tuples found

theorem GrowsTo.executor {words : List Word} (h : s.GrowsTo s')
    (found : s.executors[i]? = some words) : s'.executors[i]? = some words :=
  getElem?_of_prefix h.executors found

theorem GrowsTo.block {words : List Word} (h : s.GrowsTo s')
    (found : s.blocks[i]? = some words) : s'.blocks[i]? = some words :=
  getElem?_of_prefix h.blocks found

/-- What a word stands for, it stands for ever after. -/
theorem GrowsTo.get? (h : s.GrowsTo s') {w : Word} {v : Value} (found : s.get? w = some v) :
    s'.get? w = some v := by
  cases w with
  | placeholder | assignment => cases found
  | _ =>
    simp only [Store.get?, Option.map_eq_some_iff] at found ⊢
    obtain ⟨x, slot, rfl⟩ := found
    refine ⟨x, ?_, rfl⟩
    first
      | exact h.scalar slot
      | exact h.array slot
      | exact h.name slot
      | exact h.tuple slot
      | exact h.executor slot
      | exact h.block slot

end Store

end Tacit
