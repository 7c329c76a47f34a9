import Tacit.Proofs.Eval.Reaches

/-!
Naming the result of a sentence. The assignment marker in front of a sentence does nothing but arm
the fold after it, which takes the name in front of the marker for a name to be bound. It looks up
the value that the sentence alone would be asked for at its end, so a sentence with a name in front
comes to what it comes to without.

* `foldOnto_name_marker`: a name and the marker, folded onto a word, bind the name.
* `execute_naming`: at each depth, naming adds a binding to the outcome and changes nothing else.
* `naming_keeps_result`: the binding law, for what is not cut off.
-/

namespace Tacit

namespace Eval

/-- The program comes to the outcome, and is not cut off. -/
abbrev ExecutesTo (s : Store) (sentences : List Sentence) :
    EStateM.Result Failure Store (Option Word) → Prop :=
  Reaches (fun depth => execute depth sentences) s

/-- A greater depth changes no execution that is not cut off. -/
theorem deepening_execute (sentences : List Sentence) :
    Deepening fun depth => execute depth sentences :=
  fun depth => execute_deepens depth sentences

/-- The outcome of a program, with a result also bound to a name. -/
def bindResult (name : String) :
    EStateM.Result Failure Store (Option Word) → EStateM.Result Failure Store (Option Word)
  | .ok (some v) t => .ok (some v) (t.bind name v)
  | r => r

variable {s t : Store} {slot depth : Nat} {name : String} {left right v w : Word}
  {words : List Word}

/-! ### The marker -/

theorem setPending_of_idle (idle : s.pending = false) : { s with pending := false } = s := by
  cases s
  subst idle
  rfl

/-- A marker that is folded onto a word leaves the word, with an assignment pending. -/
theorem fold_marker (idle : s.pending = false) (depth : Nat) (w : Word) :
    fold (depth + 1) .assignment w s = .ok w { s with pending := true } := by
  rw [fold]
  unfold foldStep
  exact bind_of_ok (takeAssignment_of_idle idle)

/-- A fold with an assignment pending is that assignment. -/
theorem fold_of_pending (depth : Nat) (left right : Word) (s : Store) :
    fold (depth + 1) left right { s with pending := true } =
      assign left right { s with pending := false } :=
  rfl

/-- A name and a marker, folded onto a word, bind the name to it. -/
theorem foldOnto_name_marker (idle : s.pending = false) (depth : Nat) (x w : Word) :
    foldOnto (fold (depth + 1)) w [x, .assignment] s = assign x w s := by
  have armed := fold_marker idle depth w
  rw [show [x, Word.assignment] = [x] ++ [.assignment] from rfl, foldOnto_append,
    foldOnto_singleton, bind_of_ok armed, foldOnto_singleton, fold_of_pending,
    setPending_of_idle idle]

/-! ### One sentence -/

/-- A pending assignment is forgotten, then the sentence is reduced. -/
theorem executeSentence_eq (depth : Nat) (result : Option Word) (words : Sentence) (s : Store) :
    executeSentence depth result words s =
      (reduce depth words >>= fun reduced => pure (reduced.or result))
        { s with pending := false } :=
  rfl

/-- A source text of one sentence gives what this is reduced to, resolved. -/
theorem execute_eq_ok (h : reduce depth words { s with pending := false } = .ok (some w) t) :
    execute depth [words] s =
      (resolve w >>= fun v => pure (some v)) { t with pending := false } := by
  have run : [words].foldlM (executeSentence depth) none s = .ok (some w) t :=
    bind_of_ok ((executeSentence_eq depth none words s).trans (bind_of_ok h))
  exact bind_of_ok run

/-- A source text of one sentence fails as this does. -/
theorem execute_eq_error {e : Failure}
    (h : reduce depth words { s with pending := false } = .error e t) :
    execute depth [words] s = .error e t := by
  have run : [words].foldlM (executeSentence depth) none s = .error e t :=
    bind_of_error ((executeSentence_eq depth none words s).trans (bind_of_error h))
  exact bind_of_error run

/-- A name alone is looked up. -/
theorem execute_name (named : s.names[slot]? = some name) (leads : s.lookup name = some v)
    (depth : Nat) : execute depth [[.name slot]] s = .ok (some v) { s with pending := false } := by
  have leads : Store.lookup { s with pending := false } name = some v := leads
  have resolved := resolve_name (s := { s with pending := false }) named
  rw [leads] at resolved
  have alone : reduce depth [.name slot] { s with pending := false } =
      .ok (some (.name slot)) { s with pending := false } := rfl
  exact (execute_eq_ok alone).trans (bind_of_ok resolved)

/-- Resolving a name needs no depth. -/
theorem resolve_uncut (w : Word) (s : Store) : ∀ t, resolve w s ≠ .error .depthExceeded t := by
  intro t cut
  cases w with
  | name slot =>
    cases named : s.names[slot]? with
    | none =>
      simp only [resolve, bound?, ask, Store.name_eq_error named, bind, EStateM.bind] at cut
      cases cut
    | some name =>
      rw [resolve_name named] at cut
      split at cut <;> cases cut
  | scalar | array | tuple | executor | block | placeholder | assignment => cases cut

/-- One sentence, the reduction of which is not cut off, comes to an error or to a value. -/
theorem execute_cases (nonempty : words ≠ [])
    (uncut : ∀ t, reduce depth words { s with pending := false } ≠ .error .depthExceeded t) :
    (∃ e t, execute depth [words] s = .error e t ∧ e ≠ .depthExceeded) ∨
    ∃ v w t, reduce depth words { s with pending := false } = .ok (some w) t ∧
      execute depth [words] s = .ok (some v) { t with pending := false } := by
  cases reduced : reduce depth words { s with pending := false } with
  | error e t =>
    refine .inl ⟨e, t, execute_eq_error reduced, ?_⟩
    rintro rfl
    exact uncut t reduced
  | ok y t =>
    obtain ⟨w, rfl⟩ : ∃ w, y = some w := by
      rw [reduce, List.getLast?_eq_some_getLast nonempty] at reduced
      obtain ⟨w, t', -, eq⟩ := bind_eq_ok reduced
      cases eq
      exact ⟨w, rfl⟩
    have executed := execute_eq_ok reduced
    cases resolved : resolve w { t with pending := false } with
    | error e t' =>
      refine .inl ⟨e, t', executed.trans (bind_of_error resolved), ?_⟩
      rintro rfl
      exact resolve_uncut w _ t' resolved
    | ok v t' =>
      obtain rfl := (quiet_resolve w).eq_of_ok resolved
      exact .inr ⟨v, w, t, rfl, executed.trans (bind_of_ok resolved)⟩

/-- A name and the marker in front of a sentence bind the name to what the sentence comes to. -/
theorem reduce_naming {init : List Word} {last : Word} (x : Word)
    (idle : ∀ w t, foldOnto (fold (depth + 1)) last init s = .ok w t → t.pending = false) :
    reduce (depth + 1) (x :: .assignment :: (init ++ [last])) s =
      (foldOnto (fold (depth + 1)) last init >>= fun w => assign x w >>= fun v => pure (some v))
        s := by
  have split : x :: .assignment :: (init ++ [last]) = ([x, .assignment] ++ init) ++ [last] := rfl
  rw [split, reduce_concat, foldOnto_append, bind_assoc]
  cases first : foldOnto (fold (depth + 1)) last init s with
  | error e t => rw [bind_of_error first, bind_of_error first]
  | ok w t =>
    rw [bind_of_ok first, bind_of_ok first]
    exact bind_congr_of_eq (foldOnto_name_marker (idle w t first) depth x w) _

/-- Binding a free name to a word, as a program that ends with it, looks the word up as the program
that ends with the word alone does. -/
theorem execute_naming (named : s.names[slot]? = some name)
    (builtin : Builtin.isBuiltin name = false) (nonempty : words ≠ [])
    (clean : ∀ w t, reduce (depth + 1) words { s with pending := false } = .ok (some w) t →
      t.pending = false ∧ t.lookup name = none) :
    execute (depth + 1) [.name slot :: .assignment :: words] s =
      bindResult name (execute (depth + 1) [words] s) := by
  obtain ⟨init, last, rfl⟩ : ∃ init last, words = init ++ [last] :=
    ⟨_, _, (List.dropLast_append_getLast nonempty).symm⟩
  have ends : ∀ w t, foldOnto (fold (depth + 1)) last init { s with pending := false } = .ok w t →
      reduce (depth + 1) (init ++ [last]) { s with pending := false } = .ok (some w) t := by
    intro w t h
    rw [reduce_concat]
    exact bind_of_ok h
  have naming := reduce_naming (.name slot) fun w t h => (clean w t (ends w t h)).1
  cases first : foldOnto (fold (depth + 1)) last init { s with pending := false } with
  | error e t =>
    have alone : reduce (depth + 1) (init ++ [last]) { s with pending := false } = .error e t := by
      rw [reduce_concat]
      exact bind_of_error first
    rw [execute_eq_error (naming.trans (bind_of_error first)), execute_eq_error alone]
    rfl
  | ok w t =>
    rw [bind_of_ok first] at naming
    have alone := ends w t first
    obtain ⟨idle, unbound⟩ := clean w t alone
    have free : t.isTaken name = false := by
      rw [Store.isTaken, Store.isBound, unbound, builtin]
      rfl
    have steps := (stepwise_reduce (depth + 1) (init ++ [last])).of_eq_ok alone
    have named : t.names[slot]? = some name := by
      rw [steps.columns_eq.1]
      exact named
    have assigned := assign_name named w
    rw [free] at assigned
    rw [execute_eq_ok alone, setPending_of_idle idle]
    cases resolved : resolve w t with
    | error e t' =>
      obtain rfl := (quiet_resolve w).eq_of_error resolved
      rw [resolved] at assigned
      rw [execute_eq_error (naming.trans (bind_of_error assigned)), bind_of_error resolved]
      rfl
    | ok v t' =>
      obtain rfl := (quiet_resolve w).eq_of_ok resolved
      rw [resolved] at assigned
      have leads : (t'.bind name v).lookup name = some v := by
        rw [Store.lookup_bind, if_pos rfl]
      have resolved' := resolve_name (s := t'.bind name v) named
      rw [leads] at resolved'
      have idle' : (t'.bind name v).pending = false := idle
      rw [execute_eq_ok (naming.trans (bind_of_ok assigned)), setPending_of_idle idle',
        bind_of_ok resolved, bind_of_ok resolved']
      rfl

/-- The binding law: naming a result does not change it. When the reduction of a sentence comes to
an end, and leaves no assignment pending and the name unbound if it succeeds, then the sentence with
the name and the marker in front comes to what the sentence alone comes to: either to the same error
and the same store, or to the same word, which is then bound to the name and is all that the stores
differ in. From then on the name alone comes to that word. -/
theorem naming_keeps_result {r : EStateM.Result Failure Store (Option Word)}
    (named : s.names[slot]? = some name) (builtin : Builtin.isBuiltin name = false)
    (nonempty : words ≠ []) (reduces : ReducesTo { s with pending := false } words r)
    (clean : ∀ y t, r = .ok y t → t.pending = false ∧ t.lookup name = none) :
    (∃ e t, ExecutesTo s [words] (.error e t) ∧
      ExecutesTo s [.name slot :: .assignment :: words] (.error e t)) ∨
    ∃ v t, ExecutesTo s [words] (.ok (some v) t) ∧ t.lookup name = none ∧
      ExecutesTo s [.name slot :: .assignment :: words] (.ok (some v) (t.bind name v)) ∧
      ∀ t', (t.bind name v).GrowsTo t' → ∀ depth,
        execute depth [[.name slot]] t' = .ok (some v) { t' with pending := false } := by
  obtain ⟨⟨depth, eq⟩, uncut⟩ := reduces
  -- The marker needs one fold, even if the sentence needs none.
  have deeper : reduce (depth + 1) words { s with pending := false } = r :=
    (eq_of_deepens (fun depth => reduce_deepens depth _) (by rwa [eq]) (Nat.le_succ depth)).trans eq
  have clean : ∀ w t, reduce (depth + 1) words { s with pending := false } = .ok (some w) t →
      t.pending = false ∧ t.lookup name = none :=
    fun w t h => clean (some w) t (deeper.symm.trans h)
  have law := execute_naming named builtin nonempty clean
  rcases execute_cases nonempty (by rwa [deeper]) with ⟨e, t, fails, ne⟩ | ⟨v, w, t, reduced, gives⟩
  · have uncut : ∀ t', EStateM.Result.error (α := Option Word) e t ≠ .error .depthExceeded t' := by
      rintro t' ⟨⟩
      exact ne rfl
    rw [fails] at law
    exact .inl ⟨e, t, ⟨⟨depth + 1, fails⟩, uncut⟩, ⟨⟨depth + 1, law⟩, uncut⟩⟩
  · obtain ⟨idle, unbound⟩ := clean w t reduced
    rw [setPending_of_idle idle] at gives
    rw [gives] at law
    refine .inr ⟨v, t, ⟨⟨depth + 1, gives⟩, by rintro _ ⟨⟩⟩, unbound,
      ⟨⟨depth + 1, law⟩, by rintro _ ⟨⟩⟩, fun t' grows => ?_⟩
    have steps := (stepwise_reduce (depth + 1) words).of_eq_ok reduced
    have named' : (t.bind name v).names[slot]? = some name := steps.growsTo.name named
    have leads : (t.bind name v).lookup name = some v := by
      rw [Store.lookup_bind, if_pos rfl]
    exact execute_name (grows.name named') (grows.bound leads)

/-- A sentence that binds another name, as in `x: y: dec 5`, with a name in front, and the name
alone after it. -/
theorem naming_keeps_result_nested : ∃ s, s = (Source.parse .empty "x: y: dec 5").2 ∧
    ∃ v t, ExecutesTo s [[.name 1, .assignment, .name 2, .scalar .int 0]] (.ok (some v) t) ∧
      ExecutesTo s [[.name 0, .assignment, .name 1, .assignment, .name 2, .scalar .int 0]]
        (.ok (some v) (t.bind "x" v)) ∧
      execute 0 [[.name 0]] (t.bind "x" v) =
        .ok (some v) { t.bind "x" v with pending := false } := by
  have shape : (fun s : Store => s.names = #["x", "y", "dec"] ∧ s.pending = false ∧
      ((reduce 20 [.name 1, .assignment, .name 2, .scalar .int 0]).result? s).isSome = true ∧
      ((reduce 20 [.name 1, .assignment, .name 2, .scalar .int 0]).after s).pending = false ∧
      ((reduce 20 [.name 1, .assignment, .name 2, .scalar .int 0]).after s).lookup "x" = none ∧
      ((execute 20 [[.name 1, .assignment, .name 2, .scalar .int 0]]).result? s).isSome = true)
      (Source.parse .empty "x: y: dec 5").2 := by
    decide +kernel
  refine ⟨_, rfl, ?_⟩
  revert shape
  generalize (Source.parse .empty "x: y: dec 5").2 = s
  rintro ⟨names, idle, succeeds, idle', unbound, executes⟩
  have named : s.names[0]? = some "x" := by rw [names]; rfl
  have free : Builtin.isBuiltin "x" = false := by decide
  obtain ⟨y, t, reduced⟩ := exists_eq_ok succeeds
  have after : (reduce 20 [.name 1, .assignment, .name 2, .scalar .int 0]).after s = t := by
    rw [Eval.after, reduced]
  rw [after] at idle' unbound
  have reduces : ReducesTo { s with pending := false }
      [.name 1, .assignment, .name 2, .scalar .int 0] (.ok y t) := by
    rw [setPending_of_idle idle]
    exact ⟨⟨20, reduced⟩, by rintro _ ⟨⟩⟩
  rcases naming_keeps_result named free (List.cons_ne_nil _ _) reduces
    (by rintro _ _ ⟨⟩; exact ⟨idle', unbound⟩) with
    ⟨e, t, fails, -⟩ | ⟨v, t, alone, -, naming, later⟩
  · obtain ⟨v, t', succeeds⟩ := exists_eq_ok executes
    cases fails.unique (deepening_execute _) ⟨⟨20, succeeds⟩, by rintro _ ⟨⟩⟩
  · exact ⟨v, t, alone, naming, later _ (.refl _) 0⟩

end Eval

end Tacit
