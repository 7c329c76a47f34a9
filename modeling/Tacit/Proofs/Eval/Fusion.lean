import Tacit.Proofs.Eval.Completion

/-!
Filling twice. A tuple that is filled from what another tuple is filled to could as well be filled
from the other tuple as it is, and then from the argument: what its placeholders take out of the
other tuple, moved or repeated, is replaced afterwards as it would have been before. A bare
placeholder in the other tuple would spoil this, since it does not stand for one component.

* `substitute_substitute`: the law for lists of words.
* `fillTuple_fuses`: the law for tuples in a store.
-/

namespace Tacit

namespace Filling

variable {components inner filled : List Word}

/-- The word stands for one word, whatever comes after it. -/
def StandsFor (components : List Word) (v u : Word) : Prop :=
  ∀ rest, substitute components (v :: rest) = (u :: ·) <$> substitute components rest

/-- A word that is no placeholder stands for itself. -/
theorem standsFor_self {w : Word} (other : ∀ n, w ≠ .placeholder n) :
    StandsFor components w w := by
  intro rest
  cases w with
  | placeholder n => exact absurd rfl (other n)
  | _ => exact bind_pure_comp _ _

/-- A numbered placeholder stands for the component that it counts to. -/
theorem standsFor_component {n : Nat} {u : Word} (found : components[n]? = some u) :
    StandsFor components (.placeholder (n + 1)) u := by
  intro rest
  rw [substitute, found]
  exact bind_pure_comp _ _

/-- Without a bare placeholder, each word of a tuple that is filled stands for one word. -/
theorem standsFor_of_substitute (numbered : .placeholder 0 ∉ inner)
    (h : substitute components inner = .ok filled) :
    List.Forall₂ (StandsFor components) inner filled := by
  induction inner generalizing filled with
  | nil =>
    cases h
    exact .nil
  | cons v rest ih =>
    obtain ⟨bare, numbered⟩ := not_or.mp (List.mem_cons.not.mp numbered)
    have one : ∀ {u}, StandsFor components v u →
        List.Forall₂ (StandsFor components) (v :: rest) filled := by
      intro u stands
      rw [stands rest] at h
      cases later : substitute components rest with
      | error p =>
        rw [later] at h
        cases h
      | ok filled =>
        rw [later] at h
        cases h
        exact .cons stands (ih numbered later)
    cases v with
    | placeholder n =>
      cases n with
      | zero => exact absurd rfl bare
      | succ n =>
        cases found : components[n]? with
        | some u => exact one (standsFor_component found)
        | none =>
          rw [substitute, found] at h
          cases h
    | _ => exact one (standsFor_self (by simp))

/-- Words that stand for one word each are substituted one by one. -/
theorem substitute_append {vs us : List Word} (h : List.Forall₂ (StandsFor components) vs us)
    (rest : List Word) :
    substitute components (vs ++ rest) = (us ++ ·) <$> substitute components rest := by
  induction h with
  | nil => exact (id_map _).symm
  | cons stands _ ih =>
    rw [List.cons_append, stands, ih, Functor.map_map]
    rfl

/-- Filling from words that were filled before is filling from the words as they were, and filling
the outcome afterwards. Both lack the same component, if they lack one. -/
theorem substitute_substitute (numbered : .placeholder 0 ∉ inner)
    (h : substitute components inner = .ok filled) (outer : List Word) :
    substitute filled outer = substitute inner outer >>= substitute components := by
  have stands := standsFor_of_substitute numbered h
  induction outer with
  | nil => rfl
  | cons w rest ih =>
    -- each of the two fillings stands for one word, so it can be taken out of the third
    have one : ∀ {w v u}, StandsFor filled w u → StandsFor inner w v → StandsFor components v u →
        substitute filled (w :: rest) =
          substitute inner (w :: rest) >>= substitute components := by
      intro w v u whole first second
      rw [whole, first, ih, map_bind, bind_map_left]
      simp only [second _]
    cases w with
    | placeholder n =>
      cases n with
      | zero =>
        have bare : ∀ all, substitute all (.placeholder 0 :: rest) =
            (all ++ ·) <$> substitute all rest := fun _ => bind_pure_comp _ _
        rw [bare, bare, ih, map_bind, bind_map_left]
        simp only [substitute_append stands]
      | succ n =>
        rcases rel_cases (getElem?_related stands n) with
          ⟨out, out'⟩ | ⟨v, u, found, found', second⟩
        · rw [substitute, substitute, out, out']
          rfl
        · exact one (standsFor_component found') (standsFor_component found) second
    | _ =>
      exact one (standsFor_self (by simp)) (standsFor_self (by simp)) (standsFor_self (by simp))

/-- Without an arity there is nothing to complete. -/
theorem outcome_zero (components words : List Word) :
    outcome 0 components words = substitute components words := by
  rw [outcome, substitute_eq]
  cases words.find? (lacks components.length) <;> simp [completion]

end Filling

namespace Eval

open Filling

/-- How the filling of a tuple ends: with a tuple of the words, or for want of the component that
the placeholder counts to. -/
inductive FillsTo : EStateM.Result Failure Store Word → Except Word (List Word) → Prop where
  | ok {s : Store} {w : Word} {words : List Word}
      (made : s.get? w = some (.tuple (.unconnected words))) : FillsTo (.ok w s) (.ok words)
  | error {s : Store} {p argument : Word} :
      FillsTo (.error (.error (.placeholderOutOfRange p argument)) s) (.error p)

variable {s s' : Store} {i j : Nat} {argument result : Word} {outer inner words : List Word}

/-- A tuple that is connected to nothing is filled by substitution alone. -/
theorem fills_unconnected {components : List Word}
    (found : s.tuples[i]? = some (.unconnected words))
    (split : s.components argument = .ok components) :
    Fills s (.tuple i) argument (substitute components words) := by
  rw [← outcome_zero]
  exact fills_tuple found split rfl

/-- The tuple that is made has the words. -/
theorem Fills.fillsTo {tuple : Word} {outcome : Except Word (List Word)}
    (h : Fills s tuple argument outcome) : FillsTo (fillTuple tuple argument s) outcome := by
  cases outcome with
  | ok words =>
    rw [show fillTuple tuple argument s = _ from h]
    exact .ok (Store.get?_create_self s _)
  | error p =>
    rw [show fillTuple tuple argument s = _ from h]
    exact .error

/-- The components of an unconnected tuple are its words. -/
theorem components_unconnected (found : s.tuples[i]? = some (.unconnected words)) :
    s.components (.tuple i) = .ok words := by
  rw [Store.components, Store.tuple_eq_ok found]
  rfl

/-- A tuple is filled from what another one is filled to, or it is filled from the other one as it
is and then from the argument: both come to tuples of the same words, or both fail, for the same
placeholder. The other tuple must have no bare placeholder, and there must be nothing that it lacks
itself. -/
theorem fillTuple_fuses (foundOuter : s.tuples[i]? = some (.unconnected outer))
    (foundInner : s.tuples[j]? = some (.unconnected inner)) (valid : s.Valid argument)
    (numbered : .placeholder 0 ∉ inner) (filled : fillTuple (.tuple j) argument s = .ok result s') :
    ∃ outcome, FillsTo ((fillTuple (.tuple j) argument >>= fillTuple (.tuple i)) s) outcome ∧
      FillsTo ((fillTuple (.tuple i) (.tuple j) >>= (fillTuple · argument)) s) outcome := by
  obtain ⟨components, split⟩ := exists_components valid
  have first := fills_unconnected foundInner (split s (.refl s))
  have second := fills_unconnected foundOuter (components_unconnected foundInner)
  cases eq : substitute components inner with
  | error p =>
    rw [eq] at first
    cases filled.symm.trans first
  | ok us =>
    rw [eq] at first
    refine ⟨substitute us outer, ?_, ?_⟩
    · rw [bind_of_ok first]
      exact (fills_unconnected ((Store.growsTo_create s _).tuple foundOuter)
        (components_unconnected (s.tuples_create_self _))).fillsTo
    · rw [substitute_substitute numbered eq]
      cases eq' : substitute inner outer with
      | error p =>
        rw [eq'] at second
        rw [bind_of_error second]
        exact .error
      | ok words =>
        rw [eq'] at second
        rw [bind_of_ok second]
        exact (fills_unconnected (s.tuples_create_self _)
          (split _ (Store.growsTo_create s _))).fillsTo

/-- The first tuple moves a placeholder of the second one and repeats another. -/
theorem fillTuple_fuses_moved : ∃ s outcome,
    s = (Source.parse .empty "[_2 _2 _1] [_3 _1] [10 20 30]").2 ∧
    FillsTo ((fillTuple (.tuple 1) (.tuple 2) >>= fillTuple (.tuple 0)) s) outcome ∧
    FillsTo ((fillTuple (.tuple 0) (.tuple 1) >>= (fillTuple · (.tuple 2))) s) outcome := by
  have shape : (fun s : Store => s.tuples = #[.unconnected [.placeholder 2, .placeholder 2,
      .placeholder 1], .unconnected [.placeholder 3, .placeholder 1],
      .unconnected [.scalar .int 0, .scalar .int 1, .scalar .int 2]])
      (Source.parse .empty "[_2 _2 _1] [_3 _1] [10 20 30]").2 := by
    decide +kernel
  generalize (Source.parse .empty "[_2 _2 _1] [_3 _1] [10 20 30]").2 = s at shape
  have first : s.tuples[0]? = some (.unconnected [.placeholder 2, .placeholder 2,
      .placeholder 1]) := by rw [shape]; rfl
  have second : s.tuples[1]? = some (.unconnected [.placeholder 3, .placeholder 1]) := by
    rw [shape]; rfl
  have third : s.tuples[2]? = some (.unconnected [.scalar .int 0, .scalar .int 1,
      .scalar .int 2]) := by rw [shape]; rfl
  have valid : s.Valid (.tuple 2) := by
    change 2 < s.tuples.size
    rw [shape]
    decide
  obtain ⟨outcome, whole, fused⟩ := fillTuple_fuses first second valid (by decide)
    (fills_unconnected second (components_unconnected third))
  exact ⟨s, outcome, rfl, whole, fused⟩

end Eval

end Tacit
