import Tacit.Proofs.Pointwise
import Tacit.Proofs.Store.WellFormed

/-!
Deep values: the tree that is found by reading the slot of a word, then the slots of the words it
is made of, and so on. Trees mention no slots, so they can be compared across stores.

* `Unfolds.unique`: a word has at most one deep value.
* `WellFormed.exists_unfolds`: in a well-formed store each valid word has one.
* `Unfolds.mono`: growth of the store changes none.
* `UnfoldsValue.of_get?`: a word has the deep value of what it stands for.
* `UnfoldsValue.create`: a new word has the deep value of what it was made of.
-/

namespace Tacit

/-- A deep value. A connected tuple carries the text of its name. -/
inductive Tree where
  | datum (d : Datum)
  | name (text : String)
  | tuple (connectedName : Option String) (items : List Tree)
  | executor (items : List Tree)
  | block (items : List Tree)
  | placeholder (number : Nat)
  | assignment

/-- Induction on trees, with the hypothesis for every item of a group. -/
@[elab_as_elim, induction_eliminator]
theorem Tree.induct {motive : Tree → Prop} (datum : ∀ d, motive (.datum d))
    (name : ∀ text, motive (.name text))
    (tuple : ∀ connectedName items, (∀ t ∈ items, motive t) → motive (.tuple connectedName items))
    (executor : ∀ items, (∀ t ∈ items, motive t) → motive (.executor items))
    (block : ∀ items, (∀ t ∈ items, motive t) → motive (.block items))
    (placeholder : ∀ number, motive (.placeholder number)) (assignment : motive .assignment)
    (t : Tree) : motive t :=
  @Tree.rec motive (fun items => ∀ t ∈ items, motive t) datum name tuple executor block
    placeholder assignment (fun _ mem => nomatch mem)
    (fun _ _ first rest => List.forall_mem_cons.mpr ⟨first, rest⟩) t

namespace Store

/-- The word has the deep value. -/
inductive Unfolds (s : Store) : Word → Tree → Prop where
  | scalar {e : Elem} {i : Nat} {x : e.Carrier} : (s.columns e).scalars[i]? = some x →
      Unfolds s (.scalar e i) (.datum (.scalar e x))
  | array {e : Elem} {i : Nat} {xs : List e.Carrier} : (s.columns e).arrays[i]? = some xs →
      Unfolds s (.array e i) (.datum (.array e xs))
  | name {i : Nat} {text : String} : s.names[i]? = some text → Unfolds s (.name i) (.name text)
  | tuple {i : Nat} {t : Tuple} {connectedName : Option String} {items : List Tree} :
      s.tuples[i]? = some t →
      Option.Rel (fun slot text => s.names[slot]? = some text) t.connectedName connectedName →
      List.Forall₂ (Unfolds s) t.words items → Unfolds s (.tuple i) (.tuple connectedName items)
  | executor {i : Nat} {words : List Word} {items : List Tree} : s.executors[i]? = some words →
      List.Forall₂ (Unfolds s) words items → Unfolds s (.executor i) (.executor items)
  | block {i : Nat} {words : List Word} {items : List Tree} : s.blocks[i]? = some words →
      List.Forall₂ (Unfolds s) words items → Unfolds s (.block i) (.block items)
  | placeholder {number : Nat} : Unfolds s (.placeholder number) (.placeholder number)
  | assignment : Unfolds s .assignment .assignment

/-- The value, whose parts are in the store, has the deep value. -/
inductive UnfoldsValue (s : Store) : Value → Tree → Prop where
  | datum {d : Datum} : UnfoldsValue s (.datum d) (.datum d)
  | name {text : String} : UnfoldsValue s (.name text) (.name text)
  | tuple {t : Tuple} {connectedName : Option String} {items : List Tree} :
      Option.Rel (fun slot text => s.names[slot]? = some text) t.connectedName connectedName →
      List.Forall₂ s.Unfolds t.words items →
      UnfoldsValue s (.tuple t) (.tuple connectedName items)
  | executor {words : List Word} {items : List Tree} : List.Forall₂ s.Unfolds words items →
      UnfoldsValue s (.executor words) (.executor items)
  | block {words : List Word} {items : List Tree} : List.Forall₂ s.Unfolds words items →
      UnfoldsValue s (.block words) (.block items)

/-- The words, in two stores, have the same deep value. -/
def SameValue (s s' : Store) (w w' : Word) : Prop := ∃ t, s.Unfolds w t ∧ s'.Unfolds w' t

variable {s s' : Store} {w : Word} {t u : Tree}

/-! ### At most one deep value -/

private theorem forall₂_unique {words : List Word} {ts us : List Tree}
    (unique : ∀ t ∈ ts, ∀ {w u}, s.Unfolds w t → s.Unfolds w u → t = u)
    (ht : List.Forall₂ s.Unfolds words ts) (hu : List.Forall₂ s.Unfolds words us) : ts = us := by
  induction ht generalizing us with
  | nil =>
    cases hu
    rfl
  | cons first _ ih =>
    cases hu with
    | cons first' rest' =>
      rw [unique _ (.head _) first first', ih (fun t mem => unique t (.tail _ mem)) rest']

private theorem connectedName_unique {connectedName : Option Nat} {a b : Option String}
    (ha : Option.Rel (fun slot text => s.names[slot]? = some text) connectedName a)
    (hb : Option.Rel (fun slot text => s.names[slot]? = some text) connectedName b) : a = b := by
  cases ha with
  | none =>
    cases hb
    rfl
  | some found =>
    cases hb with
    | some found' => rw [Option.some.inj (found.symm.trans found')]

/-- A word stands for one tree only. -/
theorem Unfolds.unique (ht : s.Unfolds w t) (hu : s.Unfolds w u) : t = u := by
  induction t generalizing w u with
  | datum d =>
    cases ht with
    | scalar found =>
      cases hu with
      | scalar found' => rw [Option.some.inj (found.symm.trans found')]
    | array found =>
      cases hu with
      | array found' => rw [Option.some.inj (found.symm.trans found')]
  | name text =>
    cases ht with
    | name found =>
      cases hu with
      | name found' => rw [Option.some.inj (found.symm.trans found')]
  | tuple connectedName items ih =>
    cases ht with
    | tuple found connected parts =>
      cases hu with
      | tuple found' connected' parts' =>
        cases found.symm.trans found'
        rw [connectedName_unique connected connected', forall₂_unique ih parts parts']
  | executor items ih =>
    cases ht with
    | executor found parts =>
      cases hu with
      | executor found' parts' =>
        cases found.symm.trans found'
        rw [forall₂_unique ih parts parts']
  | block items ih =>
    cases ht with
    | block found parts =>
      cases hu with
      | block found' parts' =>
        cases found.symm.trans found'
        rw [forall₂_unique ih parts parts']
  | placeholder number =>
    cases ht
    cases hu
    rfl
  | assignment =>
    cases ht
    cases hu
    rfl

theorem SameValue.symm {w' : Word} (h : SameValue s s' w w') : SameValue s' s w' w := by
  obtain ⟨t, first, second⟩ := h
  exact ⟨t, second, first⟩

theorem SameValue.trans {s'' : Store} {w' w'' : Word} (h : SameValue s s' w w')
    (h' : SameValue s' s'' w' w'') : SameValue s s'' w w'' := by
  obtain ⟨t, first, second⟩ := h
  obtain ⟨t', second', third⟩ := h'
  obtain rfl := second.unique second'
  exact ⟨t, first, third⟩

/-! ### At least one deep value -/

/-- A word that stands for a tree is valid. -/
theorem Unfolds.valid (h : s.Unfolds w t) : s.Valid w := by
  cases h with
  | placeholder => trivial
  | assignment => trivial
  | scalar found | array found | name found | tuple found | executor found | block found =>
    exact (Array.getElem?_eq_some_iff.mp found).1

/-- In a well-formed store the slot that a tuple is connected to has a name. -/
theorem WellFormed.exists_connectedName (h : s.WellFormed) {i : Nat} {t : Tuple}
    (found : s.tuples[i]? = some t) : ∃ connectedName,
      Option.Rel (fun slot text => s.names[slot]? = some text) t.connectedName connectedName := by
  cases eq : t.connectedName with
  | none => exact ⟨none, .none⟩
  | some slot =>
    have lt : slot < s.names.size := h.connected found eq
    exact ⟨some s.names[slot], .some (Array.getElem?_eq_getElem lt)⟩

/-- Each valid word has a deep value: its parts are valid again, and no chain of parts is
infinite. -/
theorem WellFormed.exists_unfolds (h : s.WellFormed) (valid : s.Valid w) :
    ∃ t, s.Unfolds w t := by
  induction w using h.wellFounded.induction with
  | _ w ih =>
    have parts : ∀ value, s.get? w = some value →
        ∃ items, List.Forall₂ s.Unfolds value.parts items := fun _ found =>
      exists_related fun v mem => ih v ⟨_, found, mem⟩ (h.parts ⟨_, found, mem⟩)
    cases w with
    | scalar e i => exact ⟨_, .scalar (Array.getElem?_eq_getElem valid)⟩
    | array e i => exact ⟨_, .array (Array.getElem?_eq_getElem valid)⟩
    | name i => exact ⟨_, .name (Array.getElem?_eq_getElem valid)⟩
    | tuple i =>
      have found : s.tuples[i]? = some _ := Array.getElem?_eq_getElem valid
      obtain ⟨connectedName, connected⟩ := h.exists_connectedName found
      obtain ⟨items, unfolds⟩ := parts (.tuple _) (by rw [get?, found]; rfl)
      exact ⟨_, .tuple found connected unfolds⟩
    | executor i =>
      have found : s.executors[i]? = some _ := Array.getElem?_eq_getElem valid
      obtain ⟨items, unfolds⟩ := parts (.executor _) (by rw [get?, found]; rfl)
      exact ⟨_, .executor found unfolds⟩
    | block i =>
      have found : s.blocks[i]? = some _ := Array.getElem?_eq_getElem valid
      obtain ⟨items, unfolds⟩ := parts (.block _) (by rw [get?, found]; rfl)
      exact ⟨_, .block found unfolds⟩
    | placeholder n => exact ⟨_, .placeholder⟩
    | assignment => exact ⟨_, .assignment⟩

/-- Valid words stand for trees, one each. -/
theorem WellFormed.exists_unfolds_all (h : s.WellFormed) {words : List Word}
    (valid : ∀ w ∈ words, s.Valid w) : ∃ items, List.Forall₂ s.Unfolds words items :=
  exists_related fun w mem => h.exists_unfolds (valid w mem)

theorem valid_of_forall₂ {words : List Word} {items : List Tree}
    (h : List.Forall₂ s.Unfolds words items) : ∀ w ∈ words, s.Valid w :=
  forall_mem_of_related h Unfolds.valid

/-! ### Growth -/

private theorem forall₂_mono {words : List Word} {items : List Tree}
    (mono : ∀ t ∈ items, ∀ {w}, s.Unfolds w t → s'.Unfolds w t)
    (h : List.Forall₂ s.Unfolds words items) : List.Forall₂ s'.Unfolds words items := by
  induction h with
  | nil => exact .nil
  | cons first _ ih => exact .cons (mono _ (.head _) first) (ih fun t mem => mono t (.tail _ mem))

/-- The name that a tuple is connected to is the same in any later store. -/
theorem GrowsTo.connectedName (grows : s.GrowsTo s') {slot : Option Nat} {text : Option String}
    (h : Option.Rel (fun slot text => s.names[slot]? = some text) slot text) :
    Option.Rel (fun slot text => s'.names[slot]? = some text) slot text :=
  rel_imp (fun _ _ => grows.name) h

/-- Deep values are immutable. -/
theorem Unfolds.mono (grows : s.GrowsTo s') (h : s.Unfolds w t) : s'.Unfolds w t := by
  induction t generalizing w with
  | datum d =>
    cases h with
    | scalar found => exact .scalar (grows.scalar found)
    | array found => exact .array (grows.array found)
  | name text =>
    cases h with
    | name found => exact .name (grows.name found)
  | tuple connectedName items ih =>
    cases h with
    | tuple found connected parts =>
      exact .tuple (grows.tuple found) (grows.connectedName connected) (forall₂_mono ih parts)
  | executor items ih =>
    cases h with
    | executor found parts => exact .executor (grows.executor found) (forall₂_mono ih parts)
  | block items ih =>
    cases h with
    | block found parts => exact .block (grows.block found) (forall₂_mono ih parts)
  | placeholder number =>
    cases h
    exact .placeholder
  | assignment =>
    cases h
    exact .assignment

theorem unfolds_all_mono (grows : s.GrowsTo s') {words : List Word} {items : List Tree}
    (h : List.Forall₂ s.Unfolds words items) : List.Forall₂ s'.Unfolds words items :=
  h.imp fun _ _ => Unfolds.mono grows

/-! ### New values -/

/-- The word of a new value has the deep value that the value has. -/
theorem UnfoldsValue.create {value : Value} (h : s.UnfoldsValue value t) :
    (s.create value).2.Unfolds (s.create value).1 t := by
  have grows := growsTo_create s value
  cases h with
  | @datum d =>
    rcases d with ⟨e, x⟩ | ⟨e, xs⟩
    · exact .scalar (by simp [Store.create, Columns.pushScalar])
    · exact .array (by simp [Store.create, Columns.pushArray])
  | name => exact .name (by simp [Store.create])
  | tuple connected parts =>
    exact .tuple (by simp [Store.create]) (grows.connectedName connected)
      (unfolds_all_mono grows parts)
  | executor parts => exact .executor (by simp [Store.create]) (unfolds_all_mono grows parts)
  | block parts => exact .block (by simp [Store.create]) (unfolds_all_mono grows parts)

/-- A word has the deep value of what it stands for. -/
theorem UnfoldsValue.of_get? {value : Value} (h : s.UnfoldsValue value t)
    (found : s.get? w = some value) : s.Unfolds w t := by
  cases w with
  | scalar | array | name =>
    obtain ⟨_, slot, rfl⟩ := Option.map_eq_some_iff.mp found
    cases h
    constructor
    exact slot
  | tuple =>
    obtain ⟨_, slot, rfl⟩ := Option.map_eq_some_iff.mp found
    cases h with
    | tuple connected parts => exact .tuple slot connected parts
  | executor =>
    obtain ⟨_, slot, rfl⟩ := Option.map_eq_some_iff.mp found
    cases h with
    | executor parts => exact .executor slot parts
  | block =>
    obtain ⟨_, slot, rfl⟩ := Option.map_eq_some_iff.mp found
    cases h with
    | block parts => exact .block slot parts
  | placeholder | assignment => cases found

/-- The parts of a value that stands for a tree are valid. -/
theorem UnfoldsValue.valid_of_mem_parts {value : Value} (h : s.UnfoldsValue value t) :
    ∀ v ∈ value.parts, s.Valid v := by
  cases h with
  | datum | name => exact fun _ mem => nomatch mem
  | tuple _ parts | executor parts | block parts => exact valid_of_forall₂ parts

theorem UnfoldsValue.connectedName_lt {value : Value} (h : s.UnfoldsValue value t) {slot : Nat}
    (eq : value.connectedName = some slot) : slot < s.size .name := by
  cases h with
  | tuple connected _ =>
    change Tuple.connectedName _ = some slot at eq
    rw [eq] at connected
    cases connected with
    | some found => exact (Array.getElem?_eq_some_iff.mp found).1
  | _ => cases eq

/-- A value that stands for a tree keeps a store well-formed. -/
theorem WellFormed.create_of_unfolds (h : s.WellFormed) {value : Value}
    (unfolds : s.UnfoldsValue value t) : (s.create value).2.WellFormed :=
  h.create unfolds.valid_of_mem_parts unfolds.connectedName_lt

/-! ### The same in two stores -/

variable {r r' : Store} {w' : Word}

/-- Words of equal value keep it while their stores grow. -/
theorem SameValue.mono (grows : s.GrowsTo r) (grows' : s'.GrowsTo r') (h : SameValue s s' w w') :
    SameValue r r' w w' := by
  obtain ⟨t, first, second⟩ := h
  exact ⟨t, first.mono grows, second.mono grows'⟩

/-- Words of equal values stand for common trees. -/
theorem exists_items {words words' : List Word}
    (h : List.Forall₂ (SameValue s s') words words') :
    ∃ items, List.Forall₂ s.Unfolds words items ∧ List.Forall₂ s'.Unfolds words' items :=
  exists_common id h

end Store

end Tacit
