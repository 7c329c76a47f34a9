import Tacit.Proofs.Session.Reachable

/-!
What names are bound to. A name that is bound is no builtin and no truth value, and it is bound
to a word that stands for a value by itself, never to another name or a marker. So a name is
resolved in one step.

* `Reachable.sound`: the binding table is sound between any two programs.
* `fold_of_substitute`: a fold looks up each of its two words at most once.
-/

namespace Tacit

/-- A name that is free to be bound, with a word that stands for a value by itself. -/
structure ProperBinding (name : String) (w : Word) : Prop where
  notBuiltin : Builtin.isBuiltin name = false
  nameable : Source.Nameable name
  resolved : w.Resolved

/-- Names are never written like truth values, and all bindings are proper. -/
structure Store.Sound (s : Store) : Prop where
  nameable : ∀ {slot : Nat} {text : String}, s.names[slot]? = some text → Source.Nameable text
  proper : ∀ {name : String} {w : Word}, (name, w) ∈ s.bindings → ProperBinding name w

namespace Store

variable {s s' : Store} {w v : Word}

/-! ### Soundness is kept -/

theorem Sound.create (h : s.Sound) {value : Value}
    (nameable : ∀ {text}, value = .name text → Source.Nameable text) :
    (s.create value).2.Sound where
  nameable := by
    intro slot text found
    have named : (s.create value).2.get? (.name slot) = some (.name text) := by
      rw [get?, found]
      rfl
    rw [get?_create] at named
    split at named
    · exact nameable (Option.some.inj named)
    · obtain ⟨other, found, eq⟩ := Option.map_eq_some_iff.mp named
      cases eq
      exact h.nameable found
  proper := by
    rw [bindings_create]
    exact h.proper

/-- Binding a name to a resolved word keeps the store sound. -/
theorem Sound.bind (h : s.Sound) {name : String} (proper : ProperBinding name w) :
    (s.bind name w).Sound where
  nameable := h.nameable
  proper := by
    intro other v mem
    rcases Bindings.mem_insert mem with eq | mem
    · cases eq
      exact proper
    · exact h.proper mem

/-- What a lookup gives needs no second one. -/
theorem Sound.resolved_of_lookup (h : s.Sound) {name : String} (found : s.lookup name = some w) :
    w.Resolved :=
  (h.proper (Bindings.mem_of_lookup found)).resolved

theorem Sound.make (h : s.Sound) (made : s.Make s') : s'.Sound := by
  cases made with
  | value v nameable => exact h.create nameable

theorem Sound.step (h : s.Sound) (step : s.Step s') : s'.Sound := by
  cases step with
  | datum d => exact h.create fun eq => nomatch eq
  | tuple words => exact h.create fun eq => nomatch eq
  | setPending p => exact ⟨h.nameable, h.proper⟩
  | bind named free resolved =>
    refine h.bind ⟨(Bool.or_eq_false_iff.mp free).1, h.nameable named, ?_⟩
    rcases resolved with resolved | ⟨other, found⟩
    · exact resolved
    · exact h.resolved_of_lookup found

/-- Evaluation keeps the store sound. -/
theorem Sound.steps (h : s.Sound) (steps : s.Steps s') : s'.Sound := by
  induction steps with
  | refl => exact h
  | tail _ last ih => exact ih.step last

theorem sound_empty : empty.Sound where
  nameable := fun found => by simp [empty] at found
  proper := fun mem => nomatch mem

/-- A constant is bound to a double. -/
theorem properBinding_of_constant {name : String} {x : Float}
    (mem : (name, x) ∈ Builtin.constants) (e : Elem) (slot : Nat) :
    ProperBinding name (.scalar e slot) := by
  have free : Builtin.isBuiltin name = false ∧ Source.Nameable name := by
    simp only [Builtin.constants, List.mem_cons, Prod.mk.injEq, List.not_mem_nil, or_false] at mem
    rcases mem with ⟨rfl, -⟩ | ⟨rfl, -⟩
    · exact ⟨by decide, rfl⟩
    · exact ⟨by decide, rfl⟩
  exact ⟨free.1, free.2, by simp [Word.Resolved, Word.kind]⟩

theorem Sound.bindConstant (h : s.Sound) {name : String} {x : Float}
    (mem : (name, x) ∈ Builtin.constants) : (s.bindConstant name x).Sound := by
  have made : (s.create (.datum (.scalar .double x))).2.Sound := h.create fun eq => nomatch eq
  exact made.bind (properBinding_of_constant mem _ _)

/-- Every store that a session reaches is sound. -/
theorem Reachable.sound (h : s.Reachable) : s.Sound :=
  h.invariant sound_empty (fun mem sound => sound.bindConstant mem)
    (fun made sound => sound.make made) fun step sound => sound.step step

end Store

namespace Eval

variable {s s' : Store} {w v left right left' right' : Word}

/-! ### Resolving -/

/-- A resolved word resolves to itself, and nothing is stored. -/
theorem resolve_of_resolved (h : w.Resolved) (s : Store) : resolve w s = .ok w s := by
  obtain ⟨name, placeholder, assignment⟩ := h
  cases w with
  | name => exact absurd rfl name
  | placeholder => exact absurd rfl placeholder
  | assignment => exact absurd rfl assignment
  | scalar | array | tuple | executor | block => rfl

/-- In a sound store, resolving gives a resolved word. -/
theorem resolved_of_resolve (sound : s.Sound) (h : resolve w s = .ok v s') : v.Resolved := by
  obtain ⟨-, ⟨rfl, resolved⟩ | ⟨slot, name, -, -, found⟩⟩ := resolve_eq_ok h
  · exact resolved
  · exact sound.resolved_of_lookup found

theorem bound?_of_resolved (h : w.Resolved) (s : Store) : bound? w s = .ok none s := by
  cases w with
  | name => exact absurd rfl h.1
  | _ => rfl

/-- A word is replaced at most once, namely if it is a bound name. -/
theorem substitute_cases (sound : s.Sound) (h : s.substitute w = .ok v) :
    (v = w ∧ bound? w s = .ok none s) ∨ (v ≠ w ∧ v.Resolved ∧
      bound? w s = .ok (some v) s ∧ ∃ slot, w = .name slot ∧ resolve w s = .ok v s) := by
  cases w with
  | name slot =>
    cases named : s.names[slot]? with
    | none =>
      rw [Store.substitute, Store.name_eq_error named] at h
      cases h
    | some name =>
      rw [Store.substitute, Store.name_eq_ok named] at h
      rw [bound?_name named, resolve_name named]
      cases found : s.lookup name with
      | none =>
        have eq : Except.ok ((s.lookup name).getD (.name slot)) = .ok v := h
        rw [found] at eq
        cases eq
        exact .inl ⟨rfl, rfl⟩
      | some u =>
        have eq : Except.ok ((s.lookup name).getD (.name slot)) = .ok v := h
        rw [found] at eq
        cases eq
        have resolved := sound.resolved_of_lookup found
        refine .inr ⟨?_, resolved, rfl, slot, rfl, rfl⟩
        rintro rfl
        exact resolved.1 rfl
  | scalar | array | tuple | executor | block | placeholder | assignment =>
    cases h
    exact .inl ⟨rfl, rfl⟩

/-! ### The first rules of the fold -/

/-- Without a pending assignment there is none to take. -/
theorem takeAssignment_of_idle (idle : s.pending = false) : takeAssignment s = .ok false s := by
  cases s
  subst idle
  rfl

section Rules

variable (idle : s.pending = false) (unmarked : left ≠ .assignment)

include idle unmarked

/-- The rules that are left when neither a name is to be bound nor the marker is met. -/
theorem foldStep_of_idle (fold : Folding) (right : Word) :
    foldStep fold left right s = (match right with
      | .name _ => do fold left (← resolve right)
      | _ => do
        match ← bound? left with
        | some value => fold value right
        | none => foldValues fold left right : Eval Word) s := by
  unfold foldStep
  refine (bind_of_ok (takeAssignment_of_idle idle)).trans ?_
  exact congrFun ((if_neg Bool.false_ne_true).trans (if_neg unmarked)) s

variable (depth : Nat)

/-- A name on the right is resolved first. -/
theorem fold_resolve_right {slot : Nat} (h : resolve (.name slot) s = .ok v s) :
    fold (depth + 1) left (.name slot) s = fold depth left v s := by
  exact (foldStep_of_idle idle unmarked _ _).trans (bind_of_ok h)

/-- A name on the right that is not bound ends the fold. -/
theorem fold_of_unbound {slot : Nat} (h : bound? (.name slot) s = .ok none s) :
    fold (depth + 1) left (.name slot) s = .error (.error (.nameNotFound (.name slot))) s := by
  have unresolved : resolve (.name slot) s = .error (.error (.nameNotFound (.name slot))) s :=
    bind_of_ok h
  exact (foldStep_of_idle idle unmarked _ _).trans (bind_of_error unresolved)

/-- A bound name on the left is resolved next. -/
theorem fold_resolve_left (value : right.kind ≠ .name) (h : bound? left s = .ok (some v) s) :
    fold (depth + 1) left right s = fold depth v right s := by
  cases right with
  | name slot => exact absurd rfl value
  | scalar | array | tuple | executor | block | placeholder | assignment =>
    exact (foldStep_of_idle idle unmarked _ _).trans (bind_of_ok h)

/-- No other rule looks up a word. -/
theorem fold_eq_foldValues (value : right.kind ≠ .name) (h : bound? left s = .ok none s) :
    fold (depth + 1) left right s = foldValues (fold depth) left right s := by
  cases right with
  | name slot => exact absurd rfl value
  | scalar | array | tuple | executor | block | placeholder | assignment =>
    exact (foldStep_of_idle idle unmarked _ _).trans (bind_of_ok h)

end Rules

/-- Where each word is replaced at most once, a fold comes to a rule that replaces none, unless
the right word is a name that is bound to nothing. -/
theorem fold_of_substitute (sound : s.Sound) (idle : s.pending = false)
    (unmarked : left ≠ .assignment) (hl : s.substitute left = .ok left')
    (hr : s.substitute right = .ok right') (depth : Nat) :
    fold (depth + (if right' = right then 0 else 1) + (if left' = left then 0 else 1) + 1) left
      right s = if right'.kind = .name then .error (.error (.nameNotFound right')) s
        else foldValues (fold depth) left' right' s := by
  -- The rule for the left word, once the right one is a value.
  have onto : right'.kind ≠ .name → ∀ depth,
      fold (depth + (if left' = left then 0 else 1) + 1) left right' s =
        foldValues (fold depth) left' right' s := by
    intro value depth
    rcases substitute_cases sound hl with ⟨rfl, unbound⟩ | ⟨ne, resolved, bound, -⟩
    · rw [if_pos rfl]
      exact fold_eq_foldValues idle unmarked depth value unbound
    · rw [if_neg ne, fold_resolve_left idle unmarked (depth + 1) value bound]
      have unmarked' : left' ≠ .assignment := by
        rintro rfl
        exact resolved.2.2 rfl
      exact fold_eq_foldValues idle unmarked' depth value (bound?_of_resolved resolved s)
  rcases substitute_cases sound hr with ⟨rfl, unbound⟩ | ⟨ne, resolved, -, slot, rfl, found⟩
  · rw [if_pos rfl]
    by_cases name : right'.kind = .name
    · rw [if_pos name]
      cases right' with
      | name slot => exact fold_of_unbound idle unmarked _ unbound
      | scalar | array | tuple | executor | block | placeholder | assignment => cases name
    · rw [if_neg name]
      exact onto name depth
  · rw [if_neg ne, if_neg resolved.1, Nat.add_right_comm depth 1,
      fold_resolve_right idle unmarked _ found]
    exact onto resolved.1 depth

/-! ### Results -/

/-- The result of a program is resolved, and what is resolved is never a name or a marker. -/
theorem resolved_of_execute (sound : s.Sound) {depth : Nat} {sentences : List Sentence}
    (h : execute depth sentences s = .ok (some w) s') : w.Resolved := by
  obtain ⟨result, t, run, h⟩ := bind_eq_ok h
  obtain ⟨_, t', reset, h⟩ := bind_eq_ok h
  have sound := (sound.steps ((stepwise_sentences depth sentences).of_eq_ok run)).steps
    (Stepwise.of_eq_ok stepwise_congruence.resetAssignment reset)
  cases result with
  | none => cases h
  | some v =>
    obtain ⟨u, t'', resolved, eq⟩ := bind_eq_ok h
    cases eq
    exact resolved_of_resolve sound resolved

/-- Bound names are no builtins and no truth values, and the words that they are bound to need no
resolving. So, in every store that a program passes through, resolving twice is resolving once,
a fold looks up each of its words at most once before it ends or comes to a rule that looks up
none, and the result of a program is neither a name nor a marker. -/
theorem resolve_once {s t : Store} (reachable : s.Reachable) (steps : s.Steps t) :
    (∀ name w, (name, w) ∈ t.bindings →
      Builtin.isBuiltin name = false ∧ name ≠ "true" ∧ name ≠ "false" ∧ w.Resolved) ∧
    (∀ w v t', resolve w t = .ok v t' → resolve v t' = .ok v t') ∧
    (∀ left right left' right', t.pending = false → left ≠ .assignment →
      t.substitute left = .ok left' → t.substitute right = .ok right' →
      left' ≠ .assignment ∧ bound? left' t = .ok none t ∧ ∀ depth,
        fold (depth + (if right' = right then 0 else 1) + (if left' = left then 0 else 1) + 1) left
          right t = if right'.kind = .name then .error (.error (.nameNotFound right')) t
            else foldValues (fold depth) left' right' t) ∧
    (∀ depth sentences w t', execute depth sentences t = .ok (some w) t' → w.Resolved) := by
  have sound := reachable.sound.steps steps
  refine ⟨?_, ?_, ?_, ?_⟩
  · intro name w mem
    obtain ⟨notBuiltin, nameable, resolved⟩ := sound.proper mem
    refine ⟨notBuiltin, ?_, ?_, resolved⟩
    · rintro rfl
      cases nameable
    · rintro rfl
      cases nameable
  · intro w v t' h
    exact resolve_of_resolved (resolved_of_resolve sound h) t'
  · intro left right left' right' idle unmarked hl hr
    refine ⟨?_, ?_, fold_of_substitute sound idle unmarked hl hr⟩
    · rcases substitute_cases sound hl with ⟨rfl, -⟩ | ⟨-, resolved, -⟩
      · exact unmarked
      · rintro rfl
        exact resolved.2.2 rfl
    · rcases substitute_cases sound hl with ⟨rfl, unbound⟩ | ⟨-, resolved, -⟩
      · exact unbound
      · exact bound?_of_resolved resolved t
  · intro depth sentences w t' h
    exact resolved_of_execute sound h

/-- A name that is bound to a name is bound to the value of that name. -/
theorem resolve_once_nested :
    ("a", Word.scalar .int 0) ∈ ((Session.mk .empty).run 20 "a: b: 5").2.store.bindings ∧
      Builtin.isBuiltin "a" = false ∧ (Word.scalar .int 0).Resolved := by
  have bound : ("a", Word.scalar .int 0) ∈
      ((Session.mk .empty).run 20 "a: b: 5").2.store.bindings := by
    decide +kernel
  obtain ⟨notBuiltin, -, -, resolved⟩ :=
    (resolve_once (Store.Reachable.empty.run 20 "a: b: 5") .refl).1 _ _ bound
  exact ⟨bound, notBuiltin, resolved⟩

end Eval

end Tacit
