import Tacit.Proofs.Session.Reachable

/-!
The pending assignment. A fold takes it up before anything else, so that from then on whatever goes
wrong finds none pending: the assignment itself fails after it was taken up, and every fold inside
takes up what the folds before it may have left.

* `failsIdle_fold`: a fold that fails leaves no assignment pending, whatever it was started with.
* `idle_execute`: neither does an execution, whether it fails or not.
* `no_pending_left`: what that means in a well-formed store.
-/

namespace Tacit

namespace Eval

/-- If the evaluation fails from this store on, then no assignment is pending afterwards. One that
is cut off has not come to an end, so nothing is said about it. -/
def FailsIdle {α : Type} (m : Eval α) (s : Store) : Prop :=
  ∀ e t, m s = .error e t → e ≠ .depthExceeded → t.pending = false

section Sequences

variable {α β : Type} {m : Eval α} {f : α → Eval β} {s : Store}

/-- Of an evaluation that succeeds nothing is asked. -/
theorem FailsIdle.of_eq_ok {a : α} {t : Store} (h : m s = .ok a t) : FailsIdle m s := by
  intro e t' failed
  rw [h] at failed
  cases failed

/-- What changes nothing fails without a pending assignment where there was none. -/
theorem FailsIdle.of_quiet (quiet : Quiet m) (idle : s.pending = false) : FailsIdle m s := by
  intro e t failed _
  rw [quiet.eq_of_error failed]
  exact idle

/-- A sequence fails in its first part, or in the second one from the store that the first one
left. -/
theorem FailsIdle.bind (first : FailsIdle m s)
    (next : ∀ a t, m s = .ok a t → FailsIdle (f a) t) : FailsIdle (m >>= f) s := by
  intro e t failed uncut
  cases h : m s with
  | ok a s' =>
    rw [bind_of_ok h] at failed
    exact next a s' h e t failed uncut
  | error e' s' =>
    rw [bind_of_error h] at failed
    cases failed
    exact first e t h uncut

/-- What changes no store, goes wrong before anything is pending or hands on the store it found. -/
theorem FailsIdle.bind_quiet (quiet : Quiet m) (idle : s.pending = false)
    (next : ∀ a, FailsIdle (f a) s) : FailsIdle (m >>= f) s := by
  apply FailsIdle.bind (.of_quiet quiet idle)
  intro a t h
  rw [quiet.eq_of_ok h]
  exact next a

theorem takeAssignment_eq (s : Store) :
    takeAssignment s = .ok s.pending { s with pending := false } := rfl

end Sequences

/-! ### The parts that fold no further words -/

section Parts

variable {s : Store} (idle : s.pending = false)

include idle

/-- An assignment is taken before it is tried, so one that fails is not pending. -/
theorem failsIdle_assign (target value : Word) : FailsIdle (assign target value) s := by
  cases target with
  | name slot =>
    apply FailsIdle.bind_quiet (quiet_ask _) idle
    intro name e t failed uncut
    rw [get_bind] at failed
    split at failed
    · exact FailsIdle.of_quiet (quiet_fail _) idle e t failed uncut
    · refine FailsIdle.bind_quiet (quiet_resolve value) idle ?_ e t failed uncut
      intro v
      exact .of_eq_ok rfl
  | scalar | array | tuple | executor | block | placeholder | assignment =>
    exact .of_quiet (quiet_fail _) idle

theorem failsIdle_callBuiltin (function argument : Word) :
    FailsIdle (callBuiltin function argument) s := by
  apply FailsIdle.bind_quiet (quiet_ask _) idle
  intro name
  split
  · apply FailsIdle.bind_quiet (quiet_ask _) idle
    intro args
    split
    · exact .of_eq_ok rfl
    · exact .of_quiet (quiet_fail _) idle
    · exact .of_quiet (quiet_fail _) idle
  · exact .of_quiet (quiet_fail _) idle

theorem failsIdle_fillTuple (tuple argument : Word) : FailsIdle (fillTuple tuple argument) s := by
  apply FailsIdle.bind_quiet (quiet_ask _) idle
  intro t
  apply FailsIdle.bind_quiet (quiet_ask _) idle
  intro components
  split
  · exact .of_quiet (quiet_fail _) idle
  · apply FailsIdle.bind_quiet (quiet_arity t) idle
    intro arity
    exact .of_eq_ok rfl

end Parts

/-! ### The fold -/

section Fold

variable {fold : Folding} (inside : ∀ left right s, FailsIdle (fold left right) s)

include inside

theorem failsIdle_foldOnto (seed : Word) (words : List Word) (s : Store) :
    FailsIdle (foldOnto fold seed words) s := by
  induction words generalizing s with
  | nil => exact .of_eq_ok rfl
  | cons w rest ih =>
    rw [foldOnto, List.foldrM_cons]
    apply FailsIdle.bind (ih s)
    intro reached t _
    exact inside w reached t

theorem failsIdle_mapM_foldOnto (argument : Word) (stages : List (List Word)) (s : Store) :
    FailsIdle (stages.mapM (foldOnto fold argument)) s := by
  induction stages generalizing s with
  | nil => exact .of_eq_ok rfl
  | cons stage later ih =>
    rw [List.mapM_cons]
    apply FailsIdle.bind (failsIdle_foldOnto inside argument stage s)
    intro result t _
    apply FailsIdle.bind (ih t)
    intro results t' _
    exact .of_eq_ok rfl

/-- A fan-out that finds the words and stages of its executor can fail in a stage only. -/
theorem failsIdle_fanOut {s : Store} {executor : Word} (argument : Word) {words : List Word}
    {stages : List (List Word)} (found : s.executor executor = .ok words)
    (cut : s.stages words = .ok stages) : FailsIdle (fanOut fold executor argument) s := by
  intro e t failed
  rw [fanOut, ask_bind found, ask_bind cut] at failed
  revert failed
  refine FailsIdle.bind (failsIdle_mapM_foldOnto inside argument stages s) ?_ e t
  intro results t' _
  exact .of_eq_ok rfl

/-- The rules for the kinds of words begin where no assignment is pending. -/
theorem failsIdle_foldValues {s : Store} (idle : s.pending = false) (left right : Word) :
    FailsIdle (foldValues fold left right) s := by
  unfold foldValues
  split
  · apply FailsIdle.bind_quiet (quiet_ask _) idle
    intro body
    split
    · exact failsIdle_foldOnto inside _ _ s
    · exact .of_eq_ok rfl
  · exact failsIdle_callBuiltin idle _ right
  · exact failsIdle_fillTuple idle _ right
  · exact .of_quiet (quiet_foldPlaceholder _ right) idle
  · apply FailsIdle.bind_quiet (quiet_ask _) idle
    intro words
    apply FailsIdle.bind_quiet (quiet_ask _) idle
    intro stages
    apply FailsIdle.bind (failsIdle_mapM_foldOnto inside right stages s)
    intro results t _
    exact .of_eq_ok rfl
  · apply FailsIdle.bind_quiet (quiet_ask _) idle
    intro body
    exact failsIdle_foldOnto inside right body s
  · exact .of_quiet (quiet_fail _) idle

/-- One step of folding starts by taking up what is pending, so that all its other rules start
from an idle store. -/
theorem failsIdle_foldStep (left right : Word) (s : Store) :
    FailsIdle (foldStep fold left right) s := by
  apply FailsIdle.bind (.of_eq_ok (takeAssignment_eq s))
  intro pending t taken
  have idle : t.pending = false := by
    rw [takeAssignment_eq] at taken
    cases taken
    rfl
  split
  · exact failsIdle_assign idle left right
  split
  · exact .of_eq_ok rfl
  split
  · apply FailsIdle.bind_quiet (quiet_resolve _) idle
    intro v
    exact inside left v t
  apply FailsIdle.bind_quiet (quiet_bound? left) idle
  intro bound
  split
  · exact inside _ right t
  · exact failsIdle_foldValues inside idle left right

end Fold

/-- A fold that fails leaves no assignment pending, whatever it began with. -/
theorem failsIdle_fold (depth : Nat) (left right : Word) (s : Store) :
    FailsIdle (fold depth left right) s := by
  induction depth generalizing left right s with
  | zero =>
    intro e t failed uncut
    cases failed
    exact absurd rfl uncut
  | succ depth ih => exact failsIdle_foldStep ih left right s

/-- A sentence that fails leaves no assignment pending. -/
theorem failsIdle_reduce (depth : Nat) (words : Sentence) (s : Store) :
    FailsIdle (reduce depth words) s := by
  unfold reduce
  split
  · apply FailsIdle.bind (failsIdle_foldOnto (failsIdle_fold depth) _ _ s)
    intro result t _
    exact .of_eq_ok rfl
  · exact .of_eq_ok rfl

/-! ### Sentences -/

/-- Sentences of which one fails leave no assignment pending. -/
theorem failsIdle_sentences (depth : Nat) (sentences : List Sentence) (result : Option Word)
    (s : Store) : FailsIdle (sentences.foldlM (executeSentence depth) result) s := by
  induction sentences generalizing result s with
  | nil => exact .of_eq_ok rfl
  | cons words rest ih =>
    rw [List.foldlM_cons]
    refine FailsIdle.bind (.bind (.of_eq_ok rfl) ?_) ?_
    · intro _ t _
      apply FailsIdle.bind (failsIdle_reduce depth words t)
      intro reduced t' _
      exact .of_eq_ok rfl
    · intro later t _
      exact ih later t

/-- What the last sentence leaves pending is forgotten before its result is resolved, and resolving
changes nothing. -/
theorem idle_execute {depth : Nat} {sentences : List Sentence} {s : Store}
    (uncut : ∀ t, execute depth sentences s ≠ .error .depthExceeded t) :
    ((execute depth sentences).after s).pending = false := by
  rw [execute, after_bind]
  cases h : sentences.foldlM (executeSentence depth) none s with
  | error e t =>
    have fails : execute depth sentences s = .error e t := bind_of_error h
    apply failsIdle_sentences depth sentences none s e t h
    rintro rfl
    exact uncut t fails
  | ok result t =>
    clear h
    cases result with
    | none => rfl
    | some w =>
      have quiet := (quiet_resolve w).bind fun v => quiet_pure (some v)
      exact congrArg Store.pending (quiet { t with pending := false })

/-- No pending assignment survives an execution or an error. Whether an assignment is pending or
not when it starts, an execution leaves none pending, be it with a result or with an error. And
when a fold, the reduction of a sentence or the fan-out of an executor fails, wherever inside it
things went wrong, then none is pending at that moment. -/
theorem no_pending_left {s : Store} (wellFormed : s.WellFormed) (depth : Nat) :
    (∀ sentences, (∀ t, execute depth sentences s ≠ .error .depthExceeded t) →
      ((execute depth sentences).after s).pending = false) ∧
    (∀ left right, FailsIdle (fold depth left right) s) ∧
    (∀ words, FailsIdle (reduce depth words) s) ∧
    (∀ slot argument, s.Valid (.executor slot) →
      FailsIdle (fanOut (fold depth) (.executor slot) argument) s) := by
  refine ⟨?_, ?_, ?_, ?_⟩
  · intro sentences uncut
    exact idle_execute uncut
  · intro left right
    exact failsIdle_fold depth left right s
  · intro words
    exact failsIdle_reduce depth words s
  · intro slot argument valid
    obtain ⟨t, unfolds⟩ := wellFormed.exists_unfolds valid
    cases unfolds with
    | executor found parts =>
      obtain ⟨stages, cut, -⟩ := stages_eq_ok parts
      exact failsIdle_fanOut (failsIdle_fold depth) argument (Store.executor_eq_ok found) cut

/-- The marker in a block is folded before the name in front of it, which is taken. The error
arises while the assignment is pending, and takes it up. -/
theorem no_pending_left_nested :
    ∃ e t, fold 20 (.block 0) (.scalar .int 0) (Source.parse .withConstants "{pi :} 5").2 =
      .error (.error e) t ∧ t.pending = false := by
  have wellFormed := (Store.Reachable.withConstants.parse "{pi :} 5").wellFormed
  have fails : (match fold 20 (.block 0) (.scalar .int 0)
      (Source.parse .withConstants "{pi :} 5").2 with
      | .error (.error _) _ => true
      | _ => false) = true := by
    decide +kernel
  have idle := (no_pending_left wellFormed 20).2.1 (.block 0) (.scalar .int 0)
  rw [FailsIdle] at idle
  revert fails idle
  generalize fold 20 (.block 0) (.scalar .int 0) (Source.parse .withConstants "{pi :} 5").2 = r
  intro fails idle
  rcases r with ⟨w, t⟩ | ⟨e | f | _, t⟩
  · cases fails
  · refine ⟨e, t, rfl, idle _ t rfl ?_⟩
    intro cut
    cases cut
  · cases fails
  · cases fails

end Eval

end Tacit
