import Mathlib.Logic.Relation
import Tacit.Proofs.Eval.Congruence
import Tacit.Proofs.Store.Growth

/-!
What evaluation does to a store. Whatever is evaluated, with success or without, the store that
is left comes about by steps of four kinds. What each step keeps is therefore kept by every
evaluation, and no proof about it has to look into the fold again.

* `stepwise_fold`, `stepwise_reduce`, `stepwise_execute`: the whole evaluator makes steps only.
-/

namespace Tacit

/-- Neither a name nor a marker: a word that stands for a value by itself. -/
def Word.Resolved (w : Word) : Prop :=
  w.kind ≠ .name ∧ w.kind ≠ .placeholder ∧ w.kind ≠ .assignment

namespace Store

/-- One change that evaluation makes to a store. Only free names are bound, and only to words that
stand for values by themselves or are bound already. -/
inductive Step (s : Store) : Store → Prop where
  | datum (d : Datum) : Step s (s.create (.datum d)).2
  | tuple (words : List Word) : Step s (s.create (.tuple (.unconnected words))).2
  | setPending (p : Bool) : Step s { s with pending := p }
  | bind {slot : Nat} {name : String} {w : Word} (named : s.names[slot]? = some name)
      (free : s.isTaken name = false)
      (resolved : w.Resolved ∨ ∃ other, s.lookup other = some w) : Step s (s.bind name w)

abbrev Steps : Store → Store → Prop := Relation.ReflTransGen Step

variable {s s' : Store}

theorem not_isBound_of_not_isTaken {name : String} (free : s.isTaken name = false) :
    s.isBound name = false :=
  (Bool.or_eq_false_iff.mp free).2

/-- In one step a store grows. -/
theorem Step.growsTo (h : s.Step s') : s.GrowsTo s' := by
  cases h with
  | datum d => exact growsTo_create s _
  | tuple words => exact growsTo_create s _
  | setPending p => exact growsTo_setPending s p
  | bind _ free _ => exact growsTo_bind (not_isBound_of_not_isTaken free) _

/-- In any number of steps a store grows. -/
theorem Steps.growsTo (h : s.Steps s') : s.GrowsTo s' := by
  induction h with
  | refl => exact .refl s
  | tail _ last ih => exact ih.trans last.growsTo

/-- What evaluation makes are data and tuples: names and the bodies of blocks and executors come
from sources only. -/
theorem Step.columns_eq (h : s.Step s') :
    s'.names = s.names ∧ s'.blocks = s.blocks ∧ s'.executors = s.executors := by
  cases h with
  | datum d =>
    rcases d with ⟨e, x⟩ | ⟨e, xs⟩ <;> cases e <;> exact ⟨rfl, rfl, rfl⟩
  | _ => exact ⟨rfl, rfl, rfl⟩

/-- No step makes a name, a block or an executor. -/
theorem Steps.columns_eq (h : s.Steps s') :
    s'.names = s.names ∧ s'.blocks = s.blocks ∧ s'.executors = s.executors := by
  induction h with
  | refl => exact ⟨rfl, rfl, rfl⟩
  | tail _ last ih =>
    obtain ⟨names, blocks, executors⟩ := last.columns_eq
    exact ⟨names.trans ih.1, blocks.trans ih.2.1, executors.trans ih.2.2⟩

end Store

namespace Eval

/-! ### What names and assignments come to -/

/-- A name is bound to what is looked up for it. -/
theorem bound?_name {s : Store} {slot : Nat} {name : String} (named : s.names[slot]? = some name) :
    bound? (.name slot) s = .ok (s.lookup name) s := by
  simp only [bound?, ask, Store.name_eq_ok named]
  rfl

/-- A name is resolved to what it is bound to, and fails where it is not bound. -/
theorem resolve_name {s : Store} {slot : Nat} {name : String} (named : s.names[slot]? = some name) :
    resolve (.name slot) s =
      match s.lookup name with
      | some v => .ok v s
      | none => .error (.error (.nameNotFound (.name slot))) s := by
  simp only [resolve, bind, EStateM.bind, bound?_name named]
  cases s.lookup name <;> rfl

/-- Only names are resolved to other words, and only to what they are bound to. -/
theorem resolve_eq_ok {w v : Word} {s s' : Store} (h : resolve w s = .ok v s') :
    s' = s ∧ ((v = w ∧ w.Resolved) ∨
      ∃ slot name, w = .name slot ∧ s.names[slot]? = some name ∧ s.lookup name = some v) := by
  cases w with
  | name slot =>
    cases named : s.names[slot]? with
    | none =>
      simp only [resolve, bound?, ask, Store.name_eq_error named, bind, EStateM.bind] at h
      cases h
    | some name =>
      rw [resolve_name named] at h
      cases found : s.lookup name with
      | none =>
        rw [found] at h
        cases h
      | some u =>
        rw [found] at h
        cases h
        exact ⟨rfl, .inr ⟨slot, name, rfl, named, found⟩⟩
  | placeholder n => cases h
  | assignment => cases h
  | scalar | array | tuple | executor | block =>
    cases h
    exact ⟨rfl, .inl ⟨rfl, by simp [Word.Resolved, Word.kind]⟩⟩

/-- A free name is bound to the resolved value, and a taken one is refused. -/
theorem assign_name {s : Store} {slot : Nat} {name : String} (named : s.names[slot]? = some name)
    (value : Word) : assign (.name slot) value s =
      if s.isTaken name then .error (.error (.nameAlreadyTaken (.name slot))) s
      else match resolve value s with
        | .ok v s' => .ok (.name slot) (s'.bind name v)
        | .error e s' => .error e s' := by
  simp only [assign]
  rw [ask_bind (Store.name_eq_ok named), get_bind]
  split
  · rfl
  · cases resolved : resolve value s with
    | ok v s' => exact bind_of_ok resolved
    | error e s' => exact bind_of_error resolved

/-! ### Evaluation -/

/-- The evaluation changes a store by steps only. -/
def Stepwise {α : Type} (m : Eval α) : Prop := ∀ s : Store, s.Steps (m.after s)

variable {α β : Type} {m : Eval α} {f : α → Eval β}

/-- What changes nothing takes no step. -/
theorem Quiet.stepwise (h : Quiet m) : Stepwise m := by
  intro s
  rw [h s]

/-- Evaluations in sequence take their steps one after the other. -/
theorem Stepwise.bind (hm : Stepwise m) (hf : ∀ a, Stepwise (f a)) : Stepwise (m >>= f) := by
  intro s
  have first := hm s
  rw [after_bind]
  cases h : m s with
  | ok a s' =>
    simp only [after, h] at first
    exact first.trans (hf a s')
  | error e s' =>
    simp only [after, h] at first
    exact first

theorem Stepwise.of_eq_ok {s s' : Store} {a : α} (hm : Stepwise m) (h : m s = .ok a s') :
    s.Steps s' := by
  have steps := hm s
  rwa [after, h] at steps

theorem stepwise_assign (target value : Word) : Stepwise (assign target value) := by
  cases target with
  | name slot =>
    intro s
    cases named : s.names[slot]? with
    | none =>
      simp only [after, assign, bind, EStateM.bind, ask, Store.name_eq_error named]
      exact .refl
    | some name =>
      rw [after, assign_name named]
      cases taken : s.isTaken name with
      | true => exact .refl
      | false =>
        have quiet := quiet_resolve value s
        rw [after] at quiet
        cases resolved : resolve value s with
        | ok v s' =>
          obtain ⟨rfl, self | ⟨_, other, _, _, found⟩⟩ := resolve_eq_ok resolved
          · exact .single (.bind named taken (.inl (self.1 ▸ self.2)))
          · exact .single (.bind named taken (.inr ⟨other, found⟩))
        | error e s' =>
          rw [resolved] at quiet
          cases quiet
          exact .refl
  | _ => exact (quiet_fail _).stepwise

/-- An evaluation takes steps if the folds in it do. -/
theorem stepwise_congruence : Congruence fun _ m _ => Stepwise m where
  bind := fun hm hf => hm.bind hf
  quiet := Quiet.stepwise
  datum := fun d _ => .single (.datum d)
  tuple := fun words _ => .single (.tuple words)
  armAssignment := fun _ => .single (.setPending true)
  resetAssignment := fun _ => .single (.setPending false)
  takeAssignment := fun _ => .single (.setPending false)
  assign := stepwise_assign

/-- A fold changes the store in steps only. -/
theorem stepwise_fold (depth : Nat) (left right : Word) : Stepwise (fold depth left right) := by
  induction depth generalizing left right with
  | zero => exact (quiet_throw _).stepwise
  | succ depth ih =>
    exact @Congruence.foldStep _ stepwise_congruence (fold depth) (fold depth) ih left right

/-- A sentence changes the store in steps only. -/
theorem stepwise_reduce (depth : Nat) (words : Sentence) : Stepwise (reduce depth words) :=
  @Congruence.reduce _ stepwise_congruence depth depth (stepwise_fold depth) words

theorem stepwise_sentences (depth : Nat) (sentences : List Sentence) :
    Stepwise (sentences.foldlM (executeSentence depth) none) :=
  @Congruence.sentences _ stepwise_congruence depth depth (stepwise_fold depth) sentences

/-- A source text changes the store in steps only. -/
theorem stepwise_execute (depth : Nat) (sentences : List Sentence) :
    Stepwise (execute depth sentences) :=
  @Congruence.execute _ stepwise_congruence depth depth (stepwise_fold depth) sentences

end Eval

end Tacit
