import Mathlib.Data.Fintype.Card
import Mathlib.Data.Set.Finite.List
import Mathlib.Order.WellFoundedSet
import Tacit.Proofs.Store.Bindings
import Tacit.Proofs.Store.Growth

/-!
Well-formed stores: every word that is kept anywhere stands for something, and no value is part
of itself.

* `WellFormed.create`, `WellFormed.bind`: what the store is built by keeps it well-formed.
* `WellFormed.wellFounded`: the parts of values can be followed only finitely far, so that
  statements about words can be proved by induction on the parts of their values.
-/

namespace Tacit

namespace Store

/-- The length of the column of a kind. Markers have none. -/
def size (s : Store) : Kind → Nat
  | .scalar e => (s.columns e).scalars.size
  | .array e => (s.columns e).arrays.size
  | .name => s.names.size
  | .tuple => s.tuples.size
  | .executor => s.executors.size
  | .block => s.blocks.size
  | .placeholder => 0
  | .assignment => 0

/-- A word that may be used with a store: a marker, or a slot before the end of its column. -/
def Valid (s : Store) : Word → Prop
  | .placeholder _ => True
  | .assignment => True
  | w => w.index < s.size w.kind

end Store

namespace Value

def parts : Value → List Word
  | .datum _ => []
  | .name _ => []
  | .tuple t => t.words
  | .executor words => words
  | .block words => words

def connectedName : Value → Option Nat
  | .tuple t => t.connectedName
  | _ => none

end Value

namespace Store

/-- The value of the first word is made of the second, among others. -/
def Contains (s : Store) (w v : Word) : Prop := ∃ value, s.get? w = some value ∧ v ∈ value.parts

/-- Every word that is kept stands for something, every connected tuple knows its name, and no
value is part of itself. -/
structure WellFormed (s : Store) : Prop where
  parts : ∀ {w v}, s.Contains w v → s.Valid v
  connected : ∀ {i slot : Nat} {t : Tuple}, s.tuples[i]? = some t → t.connectedName = some slot →
    slot < s.size .name
  bound : ∀ {name w}, (name, w) ∈ s.bindings → s.Valid w
  acyclic : ∀ w, ¬ Relation.TransGen s.Contains w w

variable {s s' : Store} {w v : Word} {value : Value}

/-! ### Validity -/

/-- A word that a value is found under is valid. -/
theorem valid_of_get?_eq_some (h : s.get? w = some value) : s.Valid w := by
  cases w <;> simp only [get?, Option.map_eq_some_iff, reduceCtorEq] at h
  all_goals
    obtain ⟨x, found, -⟩ := h
    obtain ⟨lt, -⟩ := Array.getElem?_eq_some_iff.mp found
    exact lt

/-- No column of a store that grows gets shorter. -/
theorem GrowsTo.size_le (h : s.GrowsTo s') (k : Kind) : s.size k ≤ s'.size k := by
  cases k with
  | scalar e => simpa [size] using (h.columns e).scalars.length_le
  | array e => simpa [size] using (h.columns e).arrays.length_le
  | name => simpa [size] using h.names.length_le
  | tuple => simpa [size] using h.tuples.length_le
  | executor => simpa [size] using h.executors.length_le
  | block => simpa [size] using h.blocks.length_le
  | placeholder => exact Nat.le_refl 0
  | assignment => exact Nat.le_refl 0

/-- A valid word stays valid. -/
theorem GrowsTo.valid (h : s.GrowsTo s') (valid : s.Valid w) : s'.Valid w := by
  cases w with
  | placeholder => trivial
  | assignment => trivial
  | scalar | array | name | tuple | executor | block =>
    exact Nat.lt_of_lt_of_le valid (h.size_le _)

/-- The word of a new value does not stand for anything before. -/
theorem not_valid_fst_create (s : Store) (value : Value) : ¬ s.Valid (s.create value).1 := by
  rcases value with (⟨e, x⟩ | ⟨e, xs⟩) | text | t | words | words <;>
    exact fun lt => absurd lt (Nat.lt_irrefl _)

theorem valid_fst_create (s : Store) (value : Value) :
    (s.create value).2.Valid (s.create value).1 :=
  valid_of_get?_eq_some (get?_create_self s value)

/-! ### Well-formed stores are kept -/

theorem wellFormed_empty : empty.WellFormed where
  parts := by
    rintro w v ⟨value, found, -⟩
    have none : empty.get? w = none := by
      cases w with
      | scalar e i => cases e <;> rfl
      | array e i => cases e <;> rfl
      | _ => rfl
    rw [none] at found
    cases found
  connected := by
    intro i slot t found
    simp [empty] at found
  bound := by
    intro name w mem
    simp [empty] at mem
  acyclic := by
    intro w cycle
    obtain ⟨v, ⟨value, found, -⟩, -⟩ := Relation.TransGen.head'_iff.mp cycle
    have valid := valid_of_get?_eq_some found
    cases w with
    | scalar e i => cases e <;> exact absurd valid (Nat.not_lt_zero i)
    | array e i => cases e <;> exact absurd valid (Nat.not_lt_zero i)
    | name i | tuple i | executor i | block i => exact absurd valid (Nat.not_lt_zero i)
    | placeholder | assignment => cases found

/-- What a new value changes: its own word has its parts, all else has the parts it had. -/
theorem contains_create (s : Store) (value : Value) (w v : Word) :
    (s.create value).2.Contains w v ↔
      w = (s.create value).1 ∧ v ∈ value.parts ∨ w ≠ (s.create value).1 ∧ s.Contains w v := by
  by_cases new : w = (s.create value).1
  · simp [Contains, get?_create, new]
  · simp [Contains, get?_create, new]

/-- A value made of valid words is part of nothing, so it closes no cycle. -/
theorem WellFormed.create (h : s.WellFormed) (parts : ∀ v ∈ value.parts, s.Valid v)
    (connected : ∀ {slot}, value.connectedName = some slot → slot < s.size .name) :
    (s.create value).2.WellFormed := by
  have old : ∀ {w v}, (s.create value).2.Contains w v → s.Valid v := by
    intro w v contains
    rcases (contains_create s value w v).mp contains with ⟨-, mem⟩ | ⟨-, contains⟩
    · exact parts v mem
    · exact h.parts contains
  have grows := growsTo_create s value
  refine ⟨fun contains => grows.valid (old contains), ?_, ?_, ?_⟩
  · intro i slot t found eq
    have lt := grows.size_le .name
    rcases value with d | text | u | words | words
    case tuple =>
      rw [show (s.create (.tuple u)).2.tuples = s.tuples.push u from rfl,
        Array.getElem?_push] at found
      split at found
      · cases found
        exact Nat.lt_of_lt_of_le (connected eq) lt
      · exact Nat.lt_of_lt_of_le (h.connected found eq) lt
    case datum =>
      have same : (s.create (.datum d)).2.tuples = s.tuples := by
        rcases d with ⟨e, x⟩ | ⟨e, xs⟩ <;> cases e <;> rfl
      exact Nat.lt_of_lt_of_le (h.connected (same ▸ found) eq) lt
    all_goals exact Nat.lt_of_lt_of_le (h.connected found eq) lt
  · intro name w mem
    rw [bindings_create] at mem
    exact grows.valid (h.bound mem)
  · intro w cycle
    -- Every word that a chain of parts leads to was valid before, so the chain was there before.
    have before : ∀ {a b}, Relation.TransGen (s.create value).2.Contains a b → s.Valid a →
        Relation.TransGen s.Contains a b := by
      intro a b chain
      have step : ∀ {a b}, (s.create value).2.Contains a b → s.Valid a → s.Contains a b := by
        intro a b contains valid
        rcases (contains_create s value a b).mp contains with ⟨new, -⟩ | ⟨-, contains⟩
        · exact absurd (new ▸ valid) (not_valid_fst_create s value)
        · exact contains
      induction chain using Relation.TransGen.head_induction_on with
      | single last => exact fun valid => .single (step last valid)
      | head first _ ih => exact fun valid => .head (step first valid) (ih (old first))
    obtain ⟨v, -, last⟩ := Relation.TransGen.tail'_iff.mp cycle
    exact h.acyclic w (before cycle (old last))

/-- Binding a name to a valid word keeps a store well-formed. -/
theorem WellFormed.bind (h : s.WellFormed) (valid : s.Valid w) (name : String) :
    (s.bind name w).WellFormed where
  parts := h.parts
  connected := h.connected
  bound := by
    intro other v mem
    rcases Bindings.mem_insert mem with eq | mem
    · cases eq
      exact valid
    · exact h.bound mem
  acyclic := h.acyclic

theorem WellFormed.setPending (h : s.WellFormed) (p : Bool) :
    WellFormed { s with pending := p } where
  parts := h.parts
  connected := h.connected
  bound := h.bound
  acyclic := h.acyclic

/-- In a well-formed store names are bound to valid words. -/
theorem valid_of_lookup (h : s.WellFormed) {name : String} (found : s.lookup name = some w) :
    s.Valid w :=
  h.bound (Bindings.mem_of_lookup found)

/-! ### Induction on parts -/

def compounds (s : Store) : List Word :=
  (List.range s.tuples.size).map .tuple ++ (List.range s.executors.size).map .executor ++
    (List.range s.blocks.size).map .block

/-- Only the words of compound values contain others. -/
theorem mem_compounds_of_contains (h : s.Contains w v) : w ∈ s.compounds := by
  obtain ⟨value, found, mem⟩ := h
  have valid := valid_of_get?_eq_some found
  cases w with
  | tuple i =>
    have lt : i < s.tuples.size := valid
    simp [compounds, lt]
  | executor i =>
    have lt : i < s.executors.size := valid
    simp [compounds, lt]
  | block i =>
    have lt : i < s.blocks.size := valid
    simp [compounds, lt]
  | scalar e i | array e i | name i =>
    obtain ⟨x, -, rfl⟩ := Option.map_eq_some_iff.mp found
    cases mem
  | placeholder | assignment => cases found

/-- In a well-formed store no word contains itself, not even through others. -/
theorem WellFormed.wellFounded (h : s.WellFormed) : WellFounded fun v w => s.Contains w v := by
  let Inside (v w : Word) : Prop := Relation.TransGen s.Contains w v
  have : IsStrictOrder Word Inside :=
    { irrefl := h.acyclic
      trans := fun _ _ _ inner outer => outer.trans inner }
  have finite : {w | w ∈ s.compounds}.WellFoundedOn Inside :=
    (List.finite_toSet s.compounds).wellFoundedOn
  -- Words without parts end every chain, and there are only finitely many others.
  have partless : ∀ v, v ∉ s.compounds → Acc (fun v w => s.Contains w v) v := fun v outside =>
    ⟨v, fun _ contains => absurd (mem_compounds_of_contains contains) outside⟩
  refine ⟨fun w => ?_⟩
  by_cases mem : w ∈ s.compounds
  · refine finite.induction mem fun w _ ih => ⟨w, fun v contains => ?_⟩
    by_cases inside : v ∈ s.compounds
    · exact ih v inside (.single contains)
    · exact partless v inside
  · exact partless w mem

end Store

end Tacit
