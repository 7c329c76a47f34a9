import Mathlib.Tactic.TFAE
import Tacit.Proofs.Eval.Fusion
import Tacit.Proofs.Eval.Reaches
import Tacit.Proofs.Session.Names
import Tacit.Proofs.Store.Staged

/-!
Picking components. A numbered placeholder picks one component of an argument. It does so alone, in
a tuple and as a stage of an executor, each by its own access to the words of the argument, and all
of them pick what stands at that position of its components.

* `component_eq`, `componentCount_eq`: access by position, and the number of components.
* `foldPlaceholder_eq`: a placeholder alone.
* `fanOut_eq_fillTuple`: an executor of placeholders, and the tuple of the same ones.
* `placeholders_agree`: all of these in one store.
-/

namespace Tacit

namespace Store

variable {s : Store} {w : Word} {components : List Word} (split : s.components w = .ok components)

include split

/-- Access by position finds what stands there in the list of the components. -/
theorem component_eq (i : Nat) : s.component w i = .ok components[i]? := by
  cases w with
  | tuple slot =>
    rw [Store.components] at split
    obtain ⟨t, found, eq⟩ := exists_of_bind_eq_ok split
    cases eq
    rw [component, found]
    rfl
  | _ =>
    cases split
    cases i <;> rfl

/-- The number of components is the length of the list. -/
theorem componentCount_eq : s.componentCount w = .ok components.length := by
  cases w with
  | tuple slot =>
    rw [Store.components] at split
    obtain ⟨t, found, eq⟩ := exists_of_bind_eq_ok split
    cases eq
    rw [componentCount, found]
    rfl
  | _ =>
    cases split
    rfl

end Store

namespace Eval

open Filling

variable {s : Store} {argument : Word} {components : List Word}

/-- A placeholder alone picks the component that it counts to. -/
theorem foldPlaceholder_eq (split : s.components argument = .ok components)
    (value : ∀ m, argument ≠ .placeholder m) (n : Nat) :
    foldPlaceholder (.placeholder (n + 1)) argument s =
      match components[n]? with
      | some w => .ok w s
      | none => .error (.error (.placeholderOutOfRange (.placeholder (n + 1)) argument)) s := by
  cases argument with
  | placeholder m => exact absurd rfl (value m)
  | tuple slot =>
    rw [Store.components] at split
    obtain ⟨t, found, eq⟩ := exists_of_bind_eq_ok split
    cases eq
    refine (ask_bind found _).trans ?_
    simp only [Word.index, componentIndex, Option.bind_some]
    cases t.words[n]? <;> rfl
  | _ =>
    cases split
    cases n <;> rfl

/-- Numbered placeholders are filled with the components that they count to. -/
theorem substitute_eq_ok_iff {ns : List Nat} {words : List Word} (numbered : ∀ n ∈ ns, 0 < n) :
    substitute components (ns.map .placeholder) = .ok words ↔
      List.Forall₂ (fun n w => components[n - 1]? = some w) ns words := by
  induction ns generalizing words with
  | nil =>
    rw [List.map_nil, substitute, List.forall₂_nil_left_iff, Except.ok.injEq]
    exact eq_comm
  | cons n ns ih =>
    obtain ⟨first, others⟩ := List.forall_mem_cons.mp numbered
    obtain ⟨m, rfl⟩ := Nat.exists_eq_add_one.mpr first
    rw [List.map_cons, substitute, List.forall₂_cons_left_iff, Nat.add_sub_cancel]
    constructor
    · intro h
      cases found : components[m]? with
      | none =>
        rw [found] at h
        cases h
      | some w =>
        rw [found] at h
        obtain ⟨later, rest, rfl⟩ := exists_of_bind_eq_ok h
        exact ⟨w, later, rfl, (ih others).mp rest, rfl⟩
    · rintro ⟨w, later, found, rest, rfl⟩
      rw [found, (ih others).mpr rest]
      rfl

/-! ### Stages -/

/-- A filling ends in one way. -/
theorem FillsTo.unique {r : EStateM.Result Failure Store Word} {o o' : Except Word (List Word)}
    (h : FillsTo r o) (h' : FillsTo r o') : o = o' := by
  cases h with
  | ok made =>
    cases h' with
    | ok made' =>
      cases made.symm.trans made'
      rfl
  | error =>
    cases h'
    rfl

/-- What is picked without a change of the store, or the placeholder that has no component. -/
def picked {α : Type} (s : Store) (argument : Word) : Except Word α → EStateM.Result Failure Store α
  | .ok a => .ok a s
  | .error p => .error (.error (.placeholderOutOfRange p argument)) s

section Stages

variable {k : Nat} {ns : List Nat} (idle : s.pending = false)

include idle

/-- Onto a tuple, a word that is no name and no marker is folded by the rule for its kind. -/
theorem fold_onto_tuple {left : Word} (unmarked : left ≠ .assignment) (value : left.kind ≠ .name)
    (depth : Nat) :
    fold (depth + 1) left (.tuple k) s = foldValues (fold depth) left (.tuple k) s := by
  have unbound : bound? left s = .ok none s := by
    cases left with
    | name => exact absurd rfl value
    | _ => rfl
  exact fold_eq_foldValues idle unmarked depth (by simp [Word.kind]) unbound

theorem fold_placeholder_onto_tuple (n depth : Nat) :
    fold (depth + 1) (.placeholder n) (.tuple k) s = foldPlaceholder (.placeholder n) (.tuple k) s :=
  fold_onto_tuple idle (by simp) (by simp [Word.kind]) depth

variable (split : s.components (.tuple k) = .ok components) (numbered : ∀ n ∈ ns, 0 < n)

include split numbered

/-- Stages of one placeholder each pick what the placeholders stand for in a tuple. The leftmost
that has no component is the one that is named. -/
theorem mapM_placeholders (depth : Nat) :
    (ns.map fun n => [Word.placeholder n]).mapM (foldOnto (fold (depth + 1)) (.tuple k)) s =
      picked s (.tuple k) (substitute components (ns.map .placeholder)) := by
  induction ns with
  | nil => rfl
  | cons n ns ih =>
    obtain ⟨first, others⟩ := List.forall_mem_cons.mp numbered
    obtain ⟨m, rfl⟩ := Nat.exists_eq_add_one.mpr first
    have alone : foldOnto (fold (depth + 1)) (.tuple k) [.placeholder (m + 1)] s =
        foldPlaceholder (.placeholder (m + 1)) (.tuple k) s := by
      rw [foldOnto_singleton, fold_placeholder_onto_tuple idle]
    rw [foldPlaceholder_eq split (by simp)] at alone
    rw [List.map_cons, List.mapM_cons, List.map_cons, substitute]
    cases found : components[m]? with
    | none =>
      rw [found] at alone
      exact bind_of_error alone
    | some w =>
      rw [found] at alone
      refine (bind_of_ok alone).trans ?_
      have later := ih others
      cases rest : substitute components (ns.map .placeholder) with
      | error p =>
        rw [rest] at later
        exact bind_of_error later
      | ok words =>
        rw [rest] at later
        exact bind_of_ok later

variable {e j depth : Nat}

/-- An executor of placeholders makes the tuple that a tuple of the same placeholders is filled to,
or fails as its filling does. -/
theorem fanOut_eq_fillTuple (executor : s.executors[e]? = some (ns.map .placeholder))
    (tuple : s.tuples[j]? = some (.unconnected (ns.map .placeholder))) :
    fanOut (fold (depth + 1)) (.executor e) (.tuple k) s = fillTuple (.tuple j) (.tuple k) s := by
  have cut : s.stages (ns.map .placeholder) = .ok (ns.map fun n => [.placeholder n]) := by
    have single : ∀ stage ∈ ns.map fun n => [Word.placeholder n], s.IsStage stage := by
      simp only [List.forall_mem_map]
      exact fun _ _ => .single rfl
    have flat : (ns.map fun n => [Word.placeholder n]).flatten = ns.map .placeholder := by
      rw [← List.flatMap_def, ← List.map_eq_flatMap]
    rw [← flat]
    exact Store.stages_of_isStage single
  have picks := mapM_placeholders idle split numbered depth
  have fills := fills_unconnected tuple split
  rw [fanOut, ask_bind (Store.executor_eq_ok executor), ask_bind cut]
  cases outcome : substitute components (ns.map .placeholder) with
  | error p =>
    rw [outcome] at picks fills
    exact (bind_of_error picks).trans (Eq.symm fills)
  | ok words =>
    rw [outcome] at picks fills
    exact (bind_of_ok picks).trans (Eq.symm fills)

/-- Folded onto a tuple, the two give the same word in the same store or fail alike, and the words
of the result are the components that the placeholders count to. -/
theorem fold_executor_eq (executor : s.executors[e]? = some (ns.map .placeholder))
    (tuple : s.tuples[j]? = some (.unconnected (ns.map .placeholder))) :
    fold (depth + 2) (.executor e) (.tuple k) s = fold (depth + 2) (.tuple j) (.tuple k) s ∧
      ∀ words, FillsTo (fold (depth + 2) (.executor e) (.tuple k) s) (.ok words) ↔
        List.Forall₂ (fun n w => components[n - 1]? = some w) ns words := by
  have fans : fold (depth + 2) (.executor e) (.tuple k) s = fillTuple (.tuple j) (.tuple k) s :=
    (fold_onto_tuple idle (by simp) (by simp [Word.kind]) (depth + 1)).trans
      (fanOut_eq_fillTuple idle split numbered executor tuple)
  have fills : fold (depth + 2) (.tuple j) (.tuple k) s = fillTuple (.tuple j) (.tuple k) s :=
    fold_onto_tuple idle (by simp) (by simp [Word.kind]) (depth + 1)
  have ends := (fills_unconnected tuple split).fillsTo
  refine ⟨fans.trans fills.symm, fun words => ?_⟩
  rw [fans, ← substitute_eq_ok_iff numbered]
  constructor
  · exact ends.unique
  · intro outcome
    rwa [outcome] at ends

end Stages

/-! ### Agreement -/

section Agreement

variable {n i : Nat} {w : Word} (split : s.components argument = .ok components) (numbered : 0 < n)

include split numbered

/-- A placeholder alone picks a word just where it stands among the components. -/
theorem foldPlaceholder_iff (value : ∀ m, argument ≠ .placeholder m) :
    (∃ t, foldPlaceholder (.placeholder n) argument s = .ok w t) ↔
      components[n - 1]? = some w := by
  obtain ⟨m, rfl⟩ := Nat.exists_eq_add_one.mpr numbered
  rw [foldPlaceholder_eq split value, Nat.add_sub_cancel]
  cases components[m]? <;> simp

/-- The tuple of one placeholder is filled with a word just where this stands among the
components. -/
theorem fillTuple_iff (found : s.tuples[i]? = some (.unconnected [.placeholder n])) :
    (∃ v t, fillTuple (.tuple i) argument s = .ok v t ∧
      t.get? v = some (.tuple (.unconnected [w]))) ↔ components[n - 1]? = some w := by
  have ends := (fills_unconnected found split).fillsTo
  have filled : substitute components [.placeholder n] = .ok [w] ↔ components[n - 1]? = some w :=
    (substitute_eq_ok_iff (by simpa using numbered : ∀ m ∈ [n], 0 < m)).trans (by simp)
  rw [← filled]
  constructor
  · rintro ⟨v, t, eq, made⟩
    rw [eq] at ends
    exact ends.unique (.ok made)
  · intro outcome
    rw [outcome] at ends
    generalize fillTuple (.tuple i) argument s = r at ends
    cases ends with
    | ok made => exact ⟨_, _, rfl, made⟩

/-- A placeholder alone that counts beyond the last component fails. -/
theorem foldPlaceholder_of_lacking (value : ∀ m, argument ≠ .placeholder m)
    (lacking : components.length < n) : foldPlaceholder (.placeholder n) argument s =
      .error (.error (.placeholderOutOfRange (.placeholder n) argument)) s := by
  obtain ⟨m, rfl⟩ := Nat.exists_eq_add_one.mpr numbered
  rw [foldPlaceholder_eq split value, List.getElem?_eq_none (by omega)]

/-- The tuple of a placeholder that counts beyond the last component fails to be filled. -/
theorem fillTuple_of_lacking (found : s.tuples[i]? = some (.unconnected [.placeholder n]))
    (lacking : components.length < n) : fillTuple (.tuple i) argument s =
      .error (.error (.placeholderOutOfRange (.placeholder n) argument)) s := by
  obtain ⟨m, rfl⟩ := Nat.exists_eq_add_one.mpr numbered
  have fills := fills_unconnected found split
  rwa [substitute, List.getElem?_eq_none (by omega)] at fills

end Agreement

/-- For each numbered placeholder and each valid argument that is no placeholder, four pieces agree:
the placeholder folded alone, the tuple of that placeholder alone filled, the access by position,
and the list of the components with their number. They pick the same word, or else there is none to
pick and both evaluations fail with the placeholder and the argument. So an executor that has
numbered placeholders only does with a tuple, where no name is to be bound, what the unconnected
tuple of the same placeholders does: both give the same word in the same store, a tuple of the
components that the placeholders count to, or both fail alike. -/
theorem placeholders_agree (valid : s.Valid argument) (value : ∀ m, argument ≠ .placeholder m) :
    ∃ components, s.components argument = .ok components ∧
      s.componentCount argument = .ok components.length ∧
      (∀ n s' i, 0 < n → s.GrowsTo s' → s'.tuples[i]? = some (.unconnected [.placeholder n]) →
        (∀ w, List.TFAE [
          ∃ t, foldPlaceholder (.placeholder n) argument s = .ok w t,
          ∃ v t, fillTuple (.tuple i) argument s' = .ok v t ∧
            t.get? v = some (.tuple (.unconnected [w])),
          s.component argument (n - 1) = .ok (some w),
          n ≤ components.length ∧ components[n - 1]? = some w]) ∧
        ((∀ w, s.component argument (n - 1) ≠ .ok (some w)) →
          foldPlaceholder (.placeholder n) argument s =
              .error (.error (.placeholderOutOfRange (.placeholder n) argument)) s ∧
            fillTuple (.tuple i) argument s' =
              .error (.error (.placeholderOutOfRange (.placeholder n) argument)) s')) ∧
      ∀ k ns e j depth, argument = .tuple k → s.pending = false → (∀ n ∈ ns, 0 < n) →
        s.executors[e]? = some (ns.map .placeholder) →
        s.tuples[j]? = some (.unconnected (ns.map .placeholder)) →
        fold (depth + 2) (.executor e) argument s = fold (depth + 2) (.tuple j) argument s ∧
          ∀ words, FillsTo (fold (depth + 2) (.executor e) argument s) (.ok words) ↔
            List.Forall₂ (fun n w => components[n - 1]? = some w) ns words := by
  obtain ⟨components, split⟩ := exists_components valid
  have here := split s (.refl s)
  refine ⟨components, here, Store.componentCount_eq here, ?_, ?_⟩
  · intro n s' i numbered grows found
    have there := split s' grows
    have in_range : ∀ w, n ≤ components.length ∧ components[n - 1]? = some w ↔
        components[n - 1]? = some w := by
      intro w
      refine ⟨And.right, fun found => ⟨?_, found⟩⟩
      have lt := (List.getElem?_eq_some_iff.mp found).1
      omega
    constructor
    · intro w
      tfae_have 1 ↔ 4 := by rw [foldPlaceholder_iff here numbered value, in_range]
      tfae_have 2 ↔ 4 := by rw [fillTuple_iff there numbered found, in_range]
      tfae_have 3 ↔ 4 := by rw [Store.component_eq here, in_range, Except.ok.injEq]
      tfae_finish
    · intro none
      have lacking : components.length < n := by
        by_contra le
        refine none components[n - 1] ?_
        rw [Store.component_eq here, List.getElem?_eq_getElem]
      exact ⟨foldPlaceholder_of_lacking here numbered value lacking,
        fillTuple_of_lacking there numbered found lacking⟩
  · rintro k ns e j depth rfl idle numbered executor tuple
    exact fold_executor_eq idle here numbered executor tuple

/-- The last and the first of three components, as two stages and as two words of a tuple, and the
second one in a tuple of its own. -/
theorem placeholders_agree_swapped : ∃ s,
    s = (Source.parse .empty "[_2] |_3 _1| [_3 _1] [10 20 30]").2 ∧
    (∃ v t, fillTuple (.tuple 0) (.tuple 2) s = .ok v t ∧
      t.get? v = some (.tuple (.unconnected [.scalar .int 1]))) ∧
    fold 2 (.executor 0) (.tuple 2) s = fold 2 (.tuple 1) (.tuple 2) s ∧
    FillsTo (fold 2 (.executor 0) (.tuple 2) s) (.ok [.scalar .int 2, .scalar .int 0]) := by
  have shape : (fun s : Store => s.pending = false ∧
      s.executors = #[[.placeholder 3, .placeholder 1]] ∧
      s.tuples = #[.unconnected [.placeholder 2], .unconnected [.placeholder 3, .placeholder 1],
        .unconnected [.scalar .int 0, .scalar .int 1, .scalar .int 2]])
      (Source.parse .empty "[_2] |_3 _1| [_3 _1] [10 20 30]").2 := by
    decide +kernel
  refine ⟨_, rfl, ?_⟩
  generalize (Source.parse .empty "[_2] |_3 _1| [_3 _1] [10 20 30]").2 = s at shape
  obtain ⟨idle, executors, tuples⟩ := shape
  have single : s.tuples[0]? = some (.unconnected [.placeholder 2]) := by rw [tuples]; rfl
  have pair : s.tuples[1]? = some (.unconnected [.placeholder 3, .placeholder 1]) := by
    rw [tuples]; rfl
  have triple : s.tuples[2]? = some (.unconnected [.scalar .int 0, .scalar .int 1,
      .scalar .int 2]) := by rw [tuples]; rfl
  have stages : s.executors[0]? = some [.placeholder 3, .placeholder 1] := by rw [executors]; rfl
  have valid : s.Valid (.tuple 2) := by
    change 2 < s.tuples.size
    rw [tuples]
    decide
  obtain ⟨components, split, -, alone, together⟩ := placeholders_agree valid (by simp)
  cases split.symm.trans (components_unconnected triple)
  obtain ⟨picks, -⟩ := alone 2 s 0 (by decide) (.refl s) single
  obtain ⟨same, words⟩ := together 2 [3, 1] 0 1 0 rfl idle (by decide) stages pair
  have second : _ ↔ 2 ≤ 3 ∧ _ := (picks (.scalar .int 1)).out 1 3
  exact ⟨second.mpr ⟨by decide, rfl⟩, same, (words _).mpr (.cons rfl (.cons rfl .nil))⟩

end Eval

end Tacit
