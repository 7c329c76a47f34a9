import Tacit.Proofs.Eval.Agreement
import Tacit.Proofs.Session.Run
import Tacit.Proofs.Source.Alike

/-!
The stores that programs can come across: what is left of an empty store, or of one with the
constants, by parsing sources and executing sentences, with success or without.

* `Reachable.invariant`: what new values and steps of evaluation keep, holds in all of them.
* `Reachable.wellFormed`: all of them are well-formed.
-/

namespace Tacit

/-- A store that parsing and executing lead to. The sentences may be those of any earlier source,
or others made of words that the store knows. -/
inductive Store.Reachable : Store → Prop where
  | empty : Reachable .empty
  | withConstants : Reachable .withConstants
  | parse {s : Store} (source : String) : Reachable s → Reachable (Source.parse s source).2
  | execute {s : Store} (depth : Nat) {sentences : List Sentence} : Reachable s →
      (∀ sentence ∈ sentences, ∀ w ∈ sentence, s.Valid w) →
      Reachable ((Eval.execute depth sentences).after s)

namespace Store

variable {s s' : Store}

/-! ### Constants -/

def bindConstant (s : Store) (name : String) (x : Float) : Store :=
  (s.create (.datum (.scalar .double x))).2.bind name (s.create (.datum (.scalar .double x))).1

/-- What holds without bindings and is kept when a constant is bound holds in new sessions. -/
theorem withConstants_induct {P : Store → Prop} (empty : P .empty)
    (constant : ∀ {s name x}, (name, x) ∈ Builtin.constants → P s → P (s.bindConstant name x)) :
    P .withConstants := by
  have all : ∀ constants : List (String × Float), constants ⊆ Builtin.constants → ∀ s, P s →
      P (constants.foldl (fun s entry => s.bindConstant entry.1 entry.2) s) := by
    intro constants
    induction constants with
    | nil => exact fun _ _ h => h
    | cons entry rest ih =>
      intro sub s h
      obtain ⟨mem, sub⟩ := List.cons_subset.mp sub
      exact ih sub _ (constant mem h)
  exact all Builtin.constants (List.Subset.refl _) .empty empty

theorem WellFormed.bindConstant (h : s.WellFormed) (name : String) (x : Float) :
    (s.bindConstant name x).WellFormed :=
  (h.create_of_unfolds .datum).bind (valid_fst_create s _) name

/-! ### Invariants -/

private theorem preserves {r : Store → Store → Prop} {P : Store → Prop}
    (one : ∀ {s s'}, r s s' → P s → P s') (h : Relation.ReflTransGen r s s') (before : P s) :
    P s' := by
  induction h with
  | refl => exact before
  | tail _ last ih => exact one last ih

/-- An invariant of the empty store, of constants, of new values and of the steps of evaluation
is an invariant of sessions. -/
theorem Reachable.invariant {P : Store → Prop} (empty : P .empty)
    (constant : ∀ {s name x}, (name, x) ∈ Builtin.constants → P s → P (s.bindConstant name x))
    (make : ∀ {s s'}, Make s s' → P s → P s') (step : ∀ {s s'}, Step s s' → P s → P s')
    (h : s.Reachable) : P s := by
  induction h with
  | empty => exact empty
  | withConstants => exact withConstants_induct empty constant
  | parse source _ ih => exact preserves make (Source.makes_parse _ source) ih
  | execute depth _ _ ih => exact preserves step (Eval.stepwise_execute depth _ _) ih

/-! ### Order of bindings -/

theorem Step.sorted (h : s.Step s') (sorted : s.bindings.Sorted) : s'.bindings.Sorted := by
  cases h with
  | datum | tuple => rwa [bindings_create]
  | setPending => exact sorted
  | bind => exact sorted.insert _ _

/-- Bindings are sorted by name in every store that a session reaches. -/
theorem Reachable.sorted (h : s.Reachable) : s.bindings.Sorted := by
  refine h.invariant List.Pairwise.nil ?_ ?_ fun step sorted => step.sorted sorted
  · intro s name x _ sorted
    rw [← bindings_create s (.datum (.scalar .double x))] at sorted
    exact sorted.insert _ _
  · intro s s' made sorted
    cases made with
    | value v => rwa [bindings_create]

end Store

/-! ### Evaluation in a well-formed store -/

namespace Eval

/-- Sentences of valid words have deep values, and their execution agrees with that of those. -/
theorem exists_agrees_execute {s : Store} (h : s.WellFormed) (depth : Nat)
    {sentences : List Sentence} (valid : ∀ sentence ∈ sentences, ∀ w ∈ sentence, s.Valid w) :
    ∃ r, Agrees (fun s => Option.Rel s.Unfolds) s (execute depth sentences s) r := by
  obtain ⟨c, same⟩ := Store.Shows.of_wellFormed h
  obtain ⟨trees, unfolds⟩ : ∃ trees, List.Forall₂ (List.Forall₂ s.Unfolds) sentences trees :=
    exists_related fun sentence mem => h.exists_unfolds_all (valid sentence mem)
  exact ⟨_, agrees_execute depth same unfolds⟩

/-- After an evaluation that agrees with one on scenes, the store shows some scene. -/
theorem Agrees.shows_after {α β : Type} {R : Store → α → β → Prop} {s : Store} {m : Eval α}
    {r : EStateM.Result Scene.Failure Scene β} (h : Agrees R s (m s) r) :
    ∃ c, (m.after s).Shows c := by
  rw [after]
  revert h
  cases m s with
  | ok a s' =>
    rintro (⟨_, same, _⟩)
    exact ⟨_, same⟩
  | error e s' =>
    intro h
    cases h with
    | error _ same => exact ⟨_, same⟩
    | depthExceeded _ same => exact ⟨_, same⟩

/-- Executing valid sentences keeps the store well-formed, however it ends. -/
theorem wellFormed_execute {s : Store} (h : s.WellFormed) (depth : Nat)
    {sentences : List Sentence} (valid : ∀ sentence ∈ sentences, ∀ w ∈ sentence, s.Valid w) :
    ((execute depth sentences).after s).WellFormed := by
  obtain ⟨r, agrees⟩ := exists_agrees_execute h depth valid
  obtain ⟨c, same⟩ := agrees.shows_after
  exact same.wellFormed

end Eval

/-- Every store that a session reaches is well-formed. -/
theorem Store.Reachable.wellFormed {s : Store} (h : s.Reachable) : s.WellFormed := by
  induction h with
  | empty => exact Store.wellFormed_empty
  | withConstants =>
    exact Store.withConstants_induct Store.wellFormed_empty fun _ h => h.bindConstant _ _
  | parse source _ ih => exact Source.wellFormed_parse ih source
  | execute depth _ valid ih => exact Eval.wellFormed_execute ih depth valid

/-- A run of a snippet only adds to the store. -/
theorem Session.growsTo_run (depth : Nat) (s : Store) (source : String) :
    s.GrowsTo ((mk s).run depth source).2.store := by
  have parsed := (Source.makes_parse s source).growsTo
  rw [store_run]
  split
  · exact parsed
  · exact parsed.trans (Eval.stepwise_execute depth _ _).growsTo

/-- A run leaves a store that a session can reach, also one that fails or is cut off. -/
theorem Store.Reachable.run {s : Store} (h : s.Reachable) (depth : Nat) (source : String) :
    ((Session.mk s).run depth source).2.store.Reachable := by
  rw [Session.store_run]
  cases parsed : (Source.parse s source).1 with
  | error e => exact h.parse source
  | ok sentences => exact (h.parse source).execute depth (Source.valid_of_parse h.wellFormed parsed)

end Tacit
