import Tacit.Eval.Fold

/-!
Relations between evaluations that are kept when evaluations are put together. The fold and all
that is made of it put evaluations together only, so what holds of the parts that fold no further
words holds of the whole evaluator. No later proof has to look into the fold for that again.

* `Congruence.foldStep`: the step from the folds inside to the fold around them.
* `Congruence.reduce`, `Congruence.execute`: the step from folds to sentences and programs.
-/

namespace Tacit

namespace Eval

/-- The store that an evaluation leaves, whether it succeeds or not. -/
def after {α : Type} (m : Eval α) (s : Store) : Store :=
  match m s with
  | .ok _ s' => s'
  | .error _ s' => s'

def result? {α : Type} (m : Eval α) (s : Store) : Option α :=
  match m s with
  | .ok a _ => some a
  | .error _ _ => none

def failure? {α : Type} (m : Eval α) (s : Store) : Option Failure :=
  match m s with
  | .ok _ _ => none
  | .error e _ => some e

theorem exists_eq_ok {α : Type} {m : Eval α} {s : Store} (h : (m.result? s).isSome = true) :
    ∃ a s', m s = .ok a s' := by
  rw [result?] at h
  cases run : m s with
  | ok a s' => exact ⟨a, s', rfl⟩
  | error e s' =>
    rw [run] at h
    cases h

theorem exists_eq_error {α : Type} {m : Eval α} {s : Store} {e : Failure}
    (h : m.failure? s = some e) : ∃ s', m s = .error e s' := by
  rw [failure?] at h
  cases run : m s with
  | ok a s' =>
    rw [run] at h
    cases h
  | error e' s' =>
    rw [run] at h
    cases h
    exact ⟨s', rfl⟩

def Quiet {α : Type} (m : Eval α) : Prop := ∀ s : Store, m.after s = s

/-! ### Sequences -/

section Sequences

variable {α β : Type} {m : Eval α} {f : α → Eval β} {s s' : Store}

/-- What a sequence leaves is what its second part leaves, if the first one succeeds. -/
theorem after_bind (m : Eval α) (f : α → Eval β) (s : Store) :
    (m >>= f).after s =
      match m s with
      | .ok a s' => (f a).after s'
      | .error _ s' => s' := by
  cases h : m s with
  | ok a s' => simp only [after, bind, EStateM.bind, h]
  | error e s' => simp only [after, bind, EStateM.bind, h]

/-- After a part that succeeds, evaluation goes on with its result. -/
theorem bind_of_ok {ε σ : Type} {m : EStateM ε σ α} {f : α → EStateM ε σ β} {s s' : σ} {a : α}
    (h : m s = .ok a s') : (m >>= f) s = f a s' := by
  simp only [bind, EStateM.bind, h]

/-- A failure ends a sequence. -/
theorem bind_of_error {ε σ : Type} {m : EStateM ε σ α} {f : α → EStateM ε σ β} {s s' : σ} {e : ε}
    (h : m s = .error e s') : (m >>= f) s = .error e s' := by
  simp only [bind, EStateM.bind, h]

/-- Evaluations that come to the same go on in the same way. -/
theorem bind_congr_of_eq {ε σ : Type} {m m' : EStateM ε σ α} {s s' : σ} (h : m s = m' s')
    (f : α → EStateM ε σ β) : (m >>= f) s = (m' >>= f) s' := by
  simp only [bind, EStateM.bind, h]

/-- A sequence that succeeds succeeds in both parts. -/
theorem bind_eq_ok {ε σ : Type} {m : EStateM ε σ α} {f : α → EStateM ε σ β} {s s' : σ} {b : β}
    (h : (m >>= f) s = .ok b s') :
    ∃ a t, m s = .ok a t ∧ f a t = .ok b s' := by
  cases first : m s with
  | ok a t =>
    rw [bind_of_ok first] at h
    exact ⟨a, t, rfl, h⟩
  | error e t =>
    rw [bind_of_error first] at h
    cases h

/-- A reading that succeeds changes nothing, so evaluation goes on where it was. -/
theorem ask_bind {read : Store → Except Fault α} {a : α} (h : read s = .ok a) (f : α → Eval β) :
    (ask read >>= f) s = f a s := by
  simp only [bind, EStateM.bind, ask, h]

theorem get_bind {σ ε ρ : Type} (f : σ → EStateM ε σ ρ) (x : σ) : (get >>= f) x = f x x := rfl

end Sequences

/-! ### Evaluations that change no store -/

section Quiet

variable {α β : Type} {m : Eval α} {f : α → Eval β}

/-- A sequence of evaluations that change nothing changes nothing. -/
theorem Quiet.bind (hm : Quiet m) (hf : ∀ a, Quiet (f a)) : Quiet (m >>= f) := by
  intro s
  have first := hm s
  rw [after_bind]
  cases h : m s with
  | ok a s' =>
    simp only [after, h] at first
    cases first
    exact hf a s
  | error e s' =>
    simp only [after, h] at first
    exact first

/-- What a quiet evaluation leaves, it has begun with. -/
theorem Quiet.eq_of_ok (hm : Quiet m) {s t : Store} {a : α} (h : m s = .ok a t) : t = s := by
  have unchanged := hm s
  simp only [after, h] at unchanged
  exact unchanged

/-- What changes nothing leaves the store as it was when it fails. -/
theorem Quiet.eq_of_error (hm : Quiet m) {s t : Store} {e : Failure} (h : m s = .error e t) :
    t = s := by
  have unchanged := hm s
  simp only [after, h] at unchanged
  exact unchanged

theorem quiet_pure (a : α) : Quiet (pure a) := fun _ => rfl

theorem quiet_throw (e : Failure) : Quiet (throw e : Eval α) := fun _ => rfl

theorem quiet_fail (e : EvalError) : Quiet (fail e : Eval α) := quiet_throw _

/-- Reading changes nothing. -/
theorem quiet_ask (read : Store → Except Fault α) : Quiet (ask read) := by
  intro s
  cases h : read s with
  | ok a => simp only [after, ask, h]
  | error e => simp only [after, ask, h]

theorem quiet_bound? (w : Word) : Quiet (bound? w) := by
  cases w with
  | name slot => exact quiet_ask _
  | _ => exact quiet_pure none

/-- Resolving a name changes nothing. -/
theorem quiet_resolve (w : Word) : Quiet (resolve w) := by
  cases w with
  | name slot =>
    refine (quiet_bound? _).bind fun bound => ?_
    cases bound with
    | none => exact quiet_fail _
    | some v => exact quiet_pure v
  | placeholder n => exact quiet_fail _
  | assignment => exact quiet_fail _
  | scalar | array | tuple | executor | block => exact quiet_pure _

theorem quiet_arity (t : Tuple) : Quiet (arity t) := by
  unfold arity
  split
  · exact (quiet_ask _).bind fun _ => quiet_pure _
  · exact quiet_pure 0

/-- Picking a component changes nothing. -/
theorem quiet_foldPlaceholder (placeholder argument : Word) :
    Quiet (foldPlaceholder placeholder argument) := by
  cases argument with
  | placeholder n => exact quiet_fail _
  | tuple slot =>
    refine (quiet_ask _).bind fun t => ?_
    split
    · exact quiet_pure _
    · exact quiet_fail _
  | _ =>
    simp only [foldPlaceholder]
    split
    · exact quiet_pure _
    · exact quiet_fail _

end Quiet

/-! ### Congruences -/

/-- A relation that holds between each evaluation that changes no store and itself, between each
elementary change and itself, and between sequences of evaluations that it holds between. -/
structure Congruence (P : (α : Type) → Eval α → Eval α → Prop) : Prop where
  bind {α β : Type} {m m' : Eval α} {f f' : α → Eval β} : P α m m' → (∀ a, P β (f a) (f' a)) →
    P β (m >>= f) (m' >>= f')
  quiet {α : Type} {m : Eval α} : Quiet m → P α m m
  datum (d : Datum) : P Word (make (.datum d)) (make (.datum d))
  tuple (words : List Word) :
    P Word (make (.tuple (.unconnected words))) (make (.tuple (.unconnected words)))
  armAssignment : P Unit armAssignment armAssignment
  resetAssignment : P Unit resetAssignment resetAssignment
  takeAssignment : P Bool takeAssignment takeAssignment
  assign (target value : Word) : P Word (assign target value) (assign target value)

namespace Congruence

variable {P : (α : Type) → Eval α → Eval α → Prop} (h : Congruence P)

include h

section Lists

variable {α β : Type}

/-- A congruence relates folds over a list, from the right, whose steps it relates. -/
theorem foldrM {f f' : α → β → Eval β} (each : ∀ a b, P β (f a b) (f' a b)) (seed : β)
    (items : List α) : P β (items.foldrM f seed) (items.foldrM f' seed) := by
  induction items with
  | nil => exact h.quiet (quiet_pure seed)
  | cons a rest ih =>
    rw [List.foldrM_cons, List.foldrM_cons]
    exact h.bind ih (each a)

/-- A congruence relates what is done for each element of a list. -/
theorem mapM {f f' : α → Eval β} (each : ∀ a, P β (f a) (f' a)) (items : List α) :
    P (List β) (items.mapM f) (items.mapM f') := by
  induction items with
  | nil => exact h.quiet (quiet_pure [])
  | cons a rest ih =>
    rw [List.mapM_cons, List.mapM_cons]
    exact h.bind (each a) fun _ => h.bind ih fun _ => h.quiet (quiet_pure _)

theorem foldlM {f f' : β → α → Eval β} (each : ∀ b a, P β (f b a) (f' b a)) (init : β)
    (items : List α) : P β (items.foldlM f init) (items.foldlM f' init) := by
  induction items generalizing init with
  | nil => exact h.quiet (quiet_pure init)
  | cons a rest ih =>
    rw [List.foldlM_cons, List.foldlM_cons]
    exact h.bind (each init a) ih

end Lists

/-! ### The parts that fold no further words -/

/-- A call folds nothing, so it is related to itself. -/
theorem callBuiltin (function argument : Word) :
    P Word (callBuiltin function argument) (callBuiltin function argument) := by
  refine h.bind (h.quiet (quiet_ask _)) fun name => ?_
  split
  · refine h.bind (h.quiet (quiet_ask _)) fun args => ?_
    split
    · exact h.datum _
    · exact h.quiet (quiet_fail _)
    · exact h.quiet (quiet_fail _)
  · exact h.quiet (quiet_fail _)

/-- Filling a tuple folds nothing, so it is related to itself. -/
theorem fillTuple (tuple argument : Word) :
    P Word (fillTuple tuple argument) (fillTuple tuple argument) := by
  refine h.bind (h.quiet (quiet_ask _)) fun t => h.bind (h.quiet (quiet_ask _)) fun _ => ?_
  split
  · exact h.quiet (quiet_fail _)
  · exact h.bind (h.quiet (quiet_arity t)) fun _ => h.tuple _

/-! ### The fold -/

section Fold

variable {fold fold' : Folding} (inside : ∀ left right, P Word (fold left right) (fold' left right))

include inside

theorem foldOnto (seed : Word) (words : List Word) :
    P Word (foldOnto fold seed words) (foldOnto fold' seed words) :=
  h.foldrM inside seed words

theorem foldOntoBlock (left block : Word) :
    P Word (foldOntoBlock fold left block) (foldOntoBlock fold' left block) := by
  refine h.bind (h.quiet (quiet_ask _)) fun body => ?_
  split
  · exact h.foldOnto inside _ _
  · exact h.quiet (quiet_pure left)

/-- Executors fold their stages only, so related folds relate them. -/
theorem fanOut (executor argument : Word) :
    P Word (fanOut fold executor argument) (fanOut fold' executor argument) := by
  refine h.bind (h.quiet (quiet_ask _)) fun _ => h.bind (h.quiet (quiet_ask _)) fun stages => ?_
  exact h.bind (h.mapM (h.foldOnto inside argument) stages) h.tuple

/-- Related folds relate the rules for all kinds of words. -/
theorem foldValues (left right : Word) :
    P Word (foldValues fold left right) (foldValues fold' left right) := by
  unfold Eval.foldValues
  split
  · exact h.foldOntoBlock inside left _
  · exact h.callBuiltin _ right
  · exact h.fillTuple _ right
  · exact h.quiet (quiet_foldPlaceholder _ right)
  · exact h.fanOut inside _ right
  · exact h.bind (h.quiet (quiet_ask _)) fun body => h.foldOnto inside right body
  · exact h.quiet (quiet_fail _)

/-- Related folds relate one step, with its pending assignment and its names. -/
theorem foldStep (left right : Word) :
    P Word (foldStep fold left right) (foldStep fold' left right) := by
  refine h.bind h.takeAssignment fun pending => ?_
  split
  · exact h.assign left right
  split
  · exact h.bind h.armAssignment fun _ => h.quiet (quiet_pure right)
  split
  · exact h.bind (h.quiet (quiet_resolve _)) fun v => inside left v
  refine h.bind (h.quiet (quiet_bound? left)) fun bound => ?_
  split
  · exact inside _ right
  · exact h.foldValues inside left right

end Fold

/-! ### Sentences -/

section Sentences

variable {depth depth' : Nat}
  (folds : ∀ left right, P Word (fold depth left right) (fold depth' left right))

include folds

theorem reduce (words : Sentence) :
    P (Option Word) (reduce depth words) (reduce depth' words) := by
  unfold Eval.reduce
  split
  · exact h.bind (h.foldOnto folds _ _) fun _ => h.quiet (quiet_pure _)
  · exact h.quiet (quiet_pure none)

theorem sentences (sentences : List Sentence) :
    P (Option Word) (sentences.foldlM (executeSentence depth) none)
      (sentences.foldlM (executeSentence depth') none) := by
  refine h.foldlM (fun result words => ?_) none sentences
  refine h.bind h.resetAssignment fun _ => ?_
  exact h.bind (h.reduce folds words) fun _ => h.quiet (quiet_pure _)

/-- Related folds relate the execution of sentences. -/
theorem execute (sentences : List Sentence) :
    P (Option Word) (execute depth sentences) (execute depth' sentences) := by
  refine h.bind (h.sentences folds sentences) fun result => ?_
  refine h.bind h.resetAssignment fun _ => ?_
  split
  · exact h.bind (h.quiet (quiet_resolve _)) fun _ => h.quiet (quiet_pure _)
  · exact h.quiet (quiet_pure none)

end Sentences

end Congruence

end Eval

end Tacit
