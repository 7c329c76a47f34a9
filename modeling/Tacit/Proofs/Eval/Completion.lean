import Tacit.Proofs.Eval.Congruence
import Tacit.Proofs.Eval.Filling
import Tacit.Proofs.Session.Reachable

/-!
What a tuple is filled to. Its words are replaced one by one; a tuple that is connected to a name
is then completed, as if the placeholders of the components that it has left had been written at
its end.

* `fills_tuple`: the words that a tuple is filled to, or the placeholder that lacks a component.
* `outcome_append_positions`: placeholders at the end do what completion does.
* `fillTuple_exact`: both, in a well-formed store.
-/

namespace Tacit

/-- What a tuple is completed to: the largest arity of the name that it is connected to. One that is
connected to nothing is not completed. -/
def Store.HasArity (s : Store) (t : Tuple) (arity : Nat) : Prop :=
  match t.connectedName with
  | none => arity = 0
  | some slot => ∃ name, s.names[slot]? = some name ∧ arity = Builtin.maxArity name

namespace Filling

variable {components words : List Word}

/-- A word lacks a component if it is a placeholder that counts beyond the last one. -/
theorem lacks_iff {count : Nat} {w : Word} :
    lacks count w = true ↔ ∃ n, w = .placeholder n ∧ count < n := by
  cases w <;> simp [lacks]

/-- Nothing is lacking if no placeholder counts beyond the last component. -/
theorem find?_lacks_eq_none_iff {count : Nat} :
    words.find? (lacks count) = none ↔ ∀ n, .placeholder n ∈ words → n ≤ count := by
  rw [List.find?_eq_none]
  constructor
  · intro none n mem
    exact Nat.le_of_not_lt fun lt => none _ mem (lacks_iff.mpr ⟨n, rfl, lt⟩)
  · intro le w mem lacking
    obtain ⟨n, rfl, lt⟩ := lacks_iff.mp lacking
    exact absurd (le n mem) (Nat.not_le_of_lt lt)

/-- The first placeholder that counts beyond the last component is the one that is found. -/
theorem find?_lacks_append {count n : Nat} {before rest : List Word} (lt : count < n)
    (le : ∀ m, .placeholder m ∈ before → m ≤ count) :
    (before ++ .placeholder n :: rest).find? (lacks count) = some (.placeholder n) := by
  rw [List.find?_append, find?_lacks_eq_none_iff.mpr le, Option.none_or, List.find?_cons,
    lacks_iff.mpr ⟨n, rfl, lt⟩]

/-! ### Outcomes -/

/-- The words that a tuple is filled to and completed with, or the placeholder that lacks a
component. -/
def outcome (arity : Nat) (components words : List Word) : Except Word (List Word) :=
  match words.find? (lacks components.length) with
  | some p => .error p
  | none => .ok (words.flatMap (expand components) ++
      completion arity components words (words.flatMap (expand components)))

/-- Where nothing is lacking, the words are expanded, and then completed. -/
theorem outcome_eq_ok {arity : Nat} (le : ∀ n, .placeholder n ∈ words → n ≤ components.length) :
    outcome arity components words = .ok (words.flatMap (expand components) ++
      completion arity components words (words.flatMap (expand components))) := by
  rw [outcome, find?_lacks_eq_none_iff.mpr le]

/-- A placeholder that counts beyond the last component makes the filling fail. -/
theorem exists_outcome_eq_error (arity : Nat) {n : Nat} (mem : .placeholder n ∈ words)
    (lt : components.length < n) : ∃ p, outcome arity components words = .error p := by
  rw [outcome]
  cases lacking : words.find? (lacks components.length) with
  | some p => exact ⟨p, rfl⟩
  | none => exact absurd (find?_lacks_eq_none_iff.mp lacking n mem) (Nat.not_le_of_lt lt)

/-- As many components complete a tuple as it has left, and no more than the arity leaves room
for. -/
theorem completion_positions (arity : Nat) (components words : List Word) :
    List.Forall₂ (fun i w => components[i]? = some w)
      ((unusedPositions components.length words).take
        (min (unusedPositions components.length words).length
          (arity - (words.flatMap (expand components)).length)))
      (completion arity components words (words.flatMap (expand components))) := by
  rw [Nat.min_comm, ← List.take_eq_take_min, completion]
  exact List.forall₂_take _ (unused_related components words)

/-- Placeholders for positions stand for the components there. -/
theorem expand_positions {positions : List Nat} {extra : List Word}
    (related : List.Forall₂ (fun i w => components[i]? = some w) positions extra) :
    (positions.map fun i => Word.placeholder (i + 1)).flatMap (expand components) = extra := by
  induction related with
  | nil => rfl
  | cons found _ ih =>
    rw [List.map_cons, List.flatMap_cons, ih, expand, found]
    rfl

/-- Placeholders for positions of components lack nothing. -/
theorem find?_lacks_positions {positions : List Nat} {extra : List Word}
    (related : List.Forall₂ (fun i w => components[i]? = some w) positions extra) :
    (positions.map fun i => Word.placeholder (i + 1)).find? (lacks components.length) = none := by
  have bounded : ∀ i ∈ positions, i < components.length :=
    forall_mem_of_related related fun found => (List.getElem?_eq_some_iff.mp found).1
  rw [find?_lacks_eq_none_iff]
  intro n mem
  obtain ⟨i, picked, eq⟩ := List.mem_map.mp mem
  cases eq
  exact bounded i picked

/-- Where placeholders for the components that complete a tuple are written at its end, it is filled
to the same words without completion. -/
theorem outcome_append_positions (arity : Nat) {positions : List Nat}
    (related : List.Forall₂ (fun i w => components[i]? = some w) positions
      (completion arity components words (words.flatMap (expand components)))) :
    outcome 0 components (words ++ positions.map fun i => .placeholder (i + 1)) =
      outcome arity components words := by
  have nothing : ∀ words filled, completion 0 components words filled = [] := by
    simp [completion]
  rw [outcome, outcome, List.find?_append, find?_lacks_positions related, Option.or_none,
    List.flatMap_append, expand_positions related, nothing, List.append_nil]

end Filling

namespace Eval

open Filling

/-- Filling a tuple makes a new tuple of the words, which is connected to nothing, or fails for the
placeholder and leaves the store as it was. -/
def Fills (s : Store) (tuple argument : Word) : Except Word (List Word) → Prop
  | .ok words => fillTuple tuple argument s =
      .ok (s.create (.tuple (.unconnected words))).1 (s.create (.tuple (.unconnected words))).2
  | .error p => fillTuple tuple argument s = .error (.error (.placeholderOutOfRange p argument)) s

variable {s s' : Store} {i : Nat} {t : Tuple} {argument : Word} {components : List Word}
  {arity : Nat}

/-- A valid word has the same components ever after. -/
theorem exists_components (valid : s.Valid argument) :
    ∃ components, ∀ s', s.GrowsTo s' → s'.components argument = .ok components := by
  cases argument with
  | tuple k =>
    obtain ⟨t, found⟩ : ∃ t, s.tuples[k]? = some t := ⟨_, Array.getElem?_eq_getElem valid⟩
    refine ⟨t.words, fun s' grows => ?_⟩
    rw [Store.components, Store.tuple_eq_ok (grows.tuple found)]
    rfl
  | _ => exact ⟨[_], fun _ _ => rfl⟩

/-- In a well-formed store a tuple has an arity, since the name that it is connected to can be
read. -/
theorem exists_hasArity (h : s.WellFormed) (found : s.tuples[i]? = some t) :
    ∃ arity, s.HasArity t arity := by
  rw [funext (Store.HasArity.eq_1 s t)]
  split
  · exact ⟨0, rfl⟩
  · next slot connected =>
    have lt : slot < s.names.size := h.connected found connected
    exact ⟨_, _, Array.getElem?_eq_getElem lt, rfl⟩

/-- The arity is read without a change of the store. -/
theorem arity_eq_of_hasArity (h : s.HasArity t arity) : Eval.arity t s = .ok arity s := by
  rw [Store.HasArity] at h
  rw [Eval.arity]
  cases connected : t.connectedName with
  | none =>
    rw [connected] at h
    rw [h]
    rfl
  | some slot =>
    rw [connected] at h
    obtain ⟨name, named, rfl⟩ := h
    exact ask_bind (Store.name_eq_ok named) _

/-- Filling a tuple from its words and the components of the argument. -/
theorem fills_tuple (found : s.tuples[i]? = some t)
    (split : s.components argument = .ok components) (connected : s.HasArity t arity) :
    Fills s (.tuple i) argument (outcome arity components t.words) := by
  have run := run_eq components t.words
  rw [outcome]
  cases lacking : t.words.find? (lacks components.length) with
  | some p =>
    rw [lacking] at run
    rw [Fills, fillTuple, ask_bind (Store.tuple_eq_ok found), ask_bind split, run]
    rfl
  | none =>
    rw [lacking] at run
    rw [Fills, fillTuple, ask_bind (Store.tuple_eq_ok found), ask_bind split, run]
    refine (bind_of_ok (arity_eq_of_hasArity connected)).trans ?_
    rw [complete_after]
    rfl

/-- In a well-formed store a tuple is filled with the components of any argument. The placeholders
that count beyond the last component are the only obstacle to it, and the leftmost of them is the
one that is named. Otherwise the new tuple holds what the words of the old one stand for, and then
as many of the components that no placeholder has taken, in order, as there are and as the arity of
the connected name leaves room for. Numbered placeholders for these components, written at the end
of a tuple that is not connected, have the same outcome. -/
theorem fillTuple_exact (h : s.WellFormed) (found : s.tuples[i]? = some t)
    (valid : s.Valid argument) :
    ∃ components arity k, s.components argument = .ok components ∧ s.HasArity t arity ∧
      k = min (unusedPositions components.length t.words).length
        (arity - (t.words.flatMap (expand components)).length) ∧
      ((∃ p s', fillTuple (.tuple i) argument s =
          .error (.error (.placeholderOutOfRange p argument)) s') ↔
        ∃ n, .placeholder n ∈ t.words ∧ components.length < n) ∧
      (∀ before n rest, t.words = before ++ .placeholder n :: rest → components.length < n →
        (∀ m, .placeholder m ∈ before → m ≤ components.length) →
        Fills s (.tuple i) argument (.error (.placeholder n))) ∧
      ((∀ n, .placeholder n ∈ t.words → n ≤ components.length) → ∃ extra,
        List.Forall₂ (fun i w => components[i]? = some w)
          ((unusedPositions components.length t.words).take k) extra ∧
        Fills s (.tuple i) argument (.ok (t.words.flatMap (expand components) ++ extra))) ∧
      ∀ s' j, s.GrowsTo s' → s'.tuples[j]? = some (.unconnected (t.words ++
          ((unusedPositions components.length t.words).take k).map fun i => .placeholder (i + 1))) →
        ∃ outcome, Fills s (.tuple i) argument outcome ∧ Fills s' (.tuple j) argument outcome := by
  obtain ⟨components, split⟩ := exists_components valid
  obtain ⟨arity, connected⟩ := exists_hasArity h found
  have fills := fills_tuple found (split s (.refl s)) connected
  have extra := completion_positions arity components t.words
  refine ⟨components, arity, _, split s (.refl s), connected, rfl, ⟨?_, ?_⟩, ?_, ?_, ?_⟩
  · rintro ⟨p, s', failed⟩
    by_contra none
    simp only [not_exists, not_and, Nat.not_lt] at none
    rw [outcome_eq_ok none] at fills
    rw [Fills, failed] at fills
    cases fills
  · rintro ⟨n, mem, lt⟩
    obtain ⟨p, lacking⟩ := exists_outcome_eq_error arity mem lt
    rw [lacking] at fills
    exact ⟨p, s, fills⟩
  · intro before n rest eq lt le
    rwa [outcome, eq, find?_lacks_append lt le] at fills
  · intro le
    rw [outcome_eq_ok le] at fills
    exact ⟨_, extra, fills⟩
  · intro s' j grows made
    refine ⟨_, fills, ?_⟩
    rw [← outcome_append_positions arity extra]
    exact fills_tuple made (split s' grows) rfl

/-- The second of three components is picked, and the first completes the arguments of `add`. -/
theorem fillTuple_exact_picked : ∃ s, s = (Source.parse .empty "add[_2] [10 20 30]").2 ∧
    s.tuples[0]? = some ⟨[.placeholder 2], some 0⟩ ∧
    s.components (.tuple 1) = .ok [.scalar .int 0, .scalar .int 1, .scalar .int 2] ∧
    Fills s (.tuple 0) (.tuple 1) (.ok [.scalar .int 1, .scalar .int 0]) := by
  have wellFormed := (Store.Reachable.empty.parse "add[_2] [10 20 30]").wellFormed
  have shape : (fun s : Store => s.names = #["add"] ∧ s.tuples = #[⟨[.placeholder 2], some 0⟩,
      .unconnected [.scalar .int 0, .scalar .int 1, .scalar .int 2]])
      (Source.parse .empty "add[_2] [10 20 30]").2 := by
    decide +kernel
  refine ⟨_, rfl, ?_⟩
  revert wellFormed shape
  generalize (Source.parse .empty "add[_2] [10 20 30]").2 = s
  rintro wellFormed ⟨names, tuples⟩
  have found : s.tuples[0]? = some ⟨[.placeholder 2], some 0⟩ := by rw [tuples]; rfl
  have valid : s.Valid (.tuple 1) := by
    change 1 < s.tuples.size
    rw [tuples]
    decide
  have parts : s.components (.tuple 1) = .ok [.scalar .int 0, .scalar .int 1, .scalar .int 2] := by
    rw [Store.components, Store.tuple_eq_ok (i := 1) (by rw [tuples]; rfl)]
    rfl
  obtain ⟨components, arity, k, split, ⟨name, named, rfl⟩, rfl, -, -, fills, -⟩ :=
    fillTuple_exact wellFormed found valid
  cases parts.symm.trans split
  rw [names] at named
  cases named
  obtain ⟨extra, related, filled⟩ := fills (by simp)
  refine ⟨found, parts, ?_⟩
  cases related with
  | cons first rest =>
    cases first
    cases rest
    exact filled

end Eval

end Tacit
