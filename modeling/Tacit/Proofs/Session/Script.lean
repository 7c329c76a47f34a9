import Tacit.Proofs.Session.Observation
import Tacit.Proofs.Source.ParseLines

/-!
Scripts. A script that is run at once does what its two halves do one after the other, although
all of it is parsed before anything is evaluated, so that every value is in another slot.

* `Deep.execute_append`: what the sentences of the first half leave to those of the second.
* `run_at_once`: a script and its two halves end with the same answer and the same bindings.
-/

namespace Tacit

/-! ### Evaluation of deep values -/

namespace Deep

theorem setPending_bind {α : Type} (p : Bool) (f : Unit → Deep α) (c : Scene) :
    (setPending p >>= f) c = f () { c with pending := p } := rfl

/-- A sentence with words forgets the result before it and a pending assignment. -/
theorem executeSentence_eq {items : List Tree} (full : items ≠ []) (depth : Nat)
    (result : Option Tree) (c : Scene) :
    executeSentence depth result items c =
      executeSentence depth none items { c with pending := false } := by
  rw [executeSentence, executeSentence, setPending_bind, setPending_bind, reduce,
    List.getLast?_eq_some_getLast full]
  simp only [bind, EStateM.bind]
  cases foldOnto (fold depth) (items.getLast full) items.dropLast { c with pending := false } <;>
    rfl

/-- Resolving changes no binding. -/
theorem scene_of_resolve {t v : Tree} {c c' : Scene} (h : resolve t c = .ok v c') : c' = c := by
  cases t with
  | name text =>
    simp only [resolve, Eval.get_bind] at h
    revert h
    cases c.env text <;> rintro ⟨⟩
    rfl
  | placeholder | assignment => cases h
  | datum | tuple | executor | block =>
    cases h
    rfl

/-- Once the first sentences have come to a result, the others are executed as they are alone. -/
theorem execute_append {depth : Nat} {first later : List (List Tree)} {c c' : Scene}
    {result : Option Tree} (h : execute depth first c = .ok result c') (more : later ≠ [])
    (full : [] ∉ later) : execute depth (first ++ later) c = execute depth later c' := by
  obtain ⟨last, c₁, run, h⟩ := Eval.bind_eq_ok h
  rw [setPending_bind] at h
  obtain rfl : c' = { c₁ with pending := false } := by
    cases last with
    | none =>
      cases h
      rfl
    | some t =>
      obtain ⟨v, c₂, resolved, h⟩ := Eval.bind_eq_ok h
      cases h
      exact scene_of_resolve resolved
  rw [execute, execute, List.foldlM_append]
  cases later with
  | nil => exact absurd rfl more
  | cons items rest =>
    have full : items ≠ [] := by
      rintro rfl
      exact full (.head _)
    simp only [List.foldlM_cons, bind_assoc]
    rw [Eval.bind_of_ok run]
    exact Eval.bind_congr_of_eq (executeSentence_eq full depth last c₁) _
end Deep

/-! ### Parsing keeps the scene -/

/-- Values that are made change no scene. -/
theorem Store.Shows.makes {s s' : Store} {c : Scene} (same : s.Shows c) (makes : s.Makes s')
    (wellFormed : s'.WellFormed) : s'.Shows c where
  wellFormed := wellFormed
  env := by
    intro name
    rw [makes.lookup_eq]
    exact rel_imp (fun _ _ => Unfolds.mono makes.growsTo) (same.env name)
  pending := makes.pending_eq.trans same.pending

namespace Source

/-- A source that one store accepts is accepted by every other, with the same deep values. -/
theorem exists_parse_eq_ok {s s' : Store} (wellFormed : s.WellFormed) (wellFormed' : s'.WellFormed)
    {source : String} {sentences : List Sentence} (parsed : (parse s source).1 = .ok sentences) :
    ∃ sentences', (parse s' source).1 = .ok sentences' ∧
      List.Forall₂ (List.Forall₂ (Store.SameValue (parse s source).2 (parse s' source).2)) sentences
        sentences' := by
  have alike := (parse_alike wellFormed wellFormed' source).outcome
  rw [parsed] at alike
  cases alike' : (parse s' source).1 with
  | error e =>
    rw [alike'] at alike
    cases alike
  | ok sentences' =>
    rw [alike'] at alike
    cases alike with
    | ok same => exact ⟨sentences', rfl, same⟩

end Source

namespace Session

/-- A run with a result comes from an execution with one. -/
theorem exists_execute_of_run {s : Store} {depth : Nat} {source : String} {text : Option String}
    {t : Session} (h : (mk s).run depth source = (.ok text, t)) :
    ∃ sentences s' result, Source.parse s source = (.ok sentences, s') ∧
      Eval.execute depth sentences s' = .ok result t.store := by
  cases parsed : Source.parse s source with
  | mk outcome s' =>
    cases outcome with
    | error e =>
      rw [run_of_refused parsed] at h
      cases h
    | ok sentences =>
      rw [run_of_parsed parsed, Eval.after] at h
      revert h
      cases executed : Eval.execute depth sentences s' with
      | error e s'' => rintro ⟨⟩
      | ok result s'' =>
        intro h
        obtain rfl : ⟨s''⟩ = t := congrArg Prod.snd h
        exact ⟨sentences, s', result, rfl, executed⟩

/-- If the first source ends well and the second one is parsed and has a sentence, running both at
once, with a newline between them, answers what the second one does behind the first. -/
theorem run_append_alike {s : Store} (wellFormed : s.WellFormed) {depth : Nat} {a b : String}
    {text : Option String} {t : Session} (first : (mk s).run depth a = (.ok text, t))
    {later : List Sentence} (parsed : (Source.parse s b).1 = .ok later) (more : later ≠ []) :
    SameAnswer ((mk s).run depth (a ++ "\n" ++ b)).1 (t.run depth b).1 ∧
      ((mk s).run depth (a ++ "\n" ++ b)).2.store.SameBindings (t.run depth b).2.store := by
  obtain ⟨sentences, s₁, result, parsedA, executed⟩ := exists_execute_of_run first
  have wellFormed₁ : s₁.WellFormed := by
    simpa [parsedA] using Source.wellFormed_parse wellFormed a
  -- the first half, in the store that it was parsed into
  obtain ⟨c, same⟩ := Store.Shows.of_wellFormed wellFormed₁
  obtain ⟨trees, unfolds⟩ : ∃ trees, List.Forall₂ (List.Forall₂ s₁.Unfolds) sentences trees := by
    apply exists_related
    intro sentence mem
    have valid := Source.valid_of_parse wellFormed (congrArg Prod.fst parsedA) sentence mem
    rw [parsedA] at valid
    exact wellFormed₁.exists_unfolds_all valid
  have agrees := Eval.agrees_execute depth same unfolds
  rw [executed] at agrees
  generalize deep : Deep.execute depth trees c = r at agrees
  cases agrees with
  | @ok _ value _ c' grows same' _ =>
    -- the second half, parsed before and after the first one is executed
    obtain ⟨sentences', parsedB, similar⟩ := Source.exists_parse_eq_ok wellFormed wellFormed₁ parsed
    obtain ⟨sentences'', parsedB', alike⟩ :=
      Source.exists_parse_eq_ok wellFormed₁ same'.wellFormed parsedB
    obtain ⟨trees', left, right⟩ := exists_common (fun words => Store.exists_items words) alike
    have parsedB : Source.parse s₁ b = (.ok sentences', (Source.parse s₁ b).2) :=
      Prod.ext parsedB rfl
    have parsedB' : Source.parse t.store b = (.ok sentences'', (Source.parse t.store b).2) :=
      Prod.ext parsedB' rfl
    have nonempty : trees' ≠ [] := by
      rintro rfl
      cases left
      cases similar
      exact more rfl
    have full : [] ∉ trees' := by
      intro mem
      obtain ⟨words, mem, related⟩ := exists_of_mem_related left mem
      cases related
      exact Source.nil_notMem_of_parse parsedB mem
    -- both executions agree with that of the second half in the scene that the first one leaves
    have makes := Source.makes_parse s₁ b
    have atOnce := Eval.agrees_execute depth
      (same.makes makes (Source.wellFormed_parse wellFormed₁ b))
      (List.rel_append (unfolds.imp fun _ _ => Store.unfolds_all_mono makes.growsTo) left)
    rw [Deep.execute_append deep nonempty full] at atOnce
    have behind := Eval.agrees_execute depth (same'.makes (Source.makes_parse t.store b)
      (Source.wellFormed_parse same'.wellFormed b)) right
    rw [run_of_parsed (Source.parse_append parsedA parsedB), run_of_parsed parsedB']
    exact answer_alike atOnce behind

/-- Running a script at once agrees with running it in pieces. If the first half has a result and
the second one is accepted and says anything, then the script comes to an end if and only if the
second half does in the session that the first one leaves; and then the answers are the same, and
the same names are bound to the same deep values. -/
theorem run_at_once {s : Store} (reachable : s.Reachable) {a b : String} {text : Option String}
    {t : Session} (first : (mk s).Ends a (.ok text) t) {later : List Sentence}
    (parsed : (Source.parse s b).1 = .ok later) (more : later ≠ []) :
    ((∃ answer u, (mk s).Ends (a ++ "\n" ++ b) answer u) ↔ ∃ answer u, t.Ends b answer u) ∧
    ∀ answer u answer' u', (mk s).Ends (a ++ "\n" ++ b) answer u → t.Ends b answer' u' →
      SameAnswer answer answer' ∧ u.store.SameBindings u'.store := by
  obtain ⟨enough, runs⟩ := first.exists_enough
  have alike : ∀ depth, enough ≤ depth →
      SameAnswer ((mk s).run depth (a ++ "\n" ++ b)).1 (t.run depth b).1 ∧
        ((mk s).run depth (a ++ "\n" ++ b)).2.store.SameBindings (t.run depth b).2.store := by
    intro depth le
    exact run_append_alike reachable.wellFormed (runs depth le) parsed more
  refine ⟨⟨?_, ?_⟩, ?_⟩
  · rintro ⟨answer, u, ends⟩
    obtain ⟨enough', runs'⟩ := ends.exists_enough
    have same := (alike (max enough enough') (Nat.le_max_left _ _)).1
    rw [runs' _ (Nat.le_max_right _ _)] at same
    exact ⟨_, _, ends_of_uncut (same.uncut ends.1)⟩
  · rintro ⟨answer, u, ends⟩
    obtain ⟨enough', runs'⟩ := ends.exists_enough
    have same := (alike (max enough enough') (Nat.le_max_left _ _)).1
    rw [runs' _ (Nat.le_max_right _ _)] at same
    exact ⟨_, _, ends_of_uncut (same.symm.uncut ends.1)⟩
  · intro answer u answer' u' ends ends'
    obtain ⟨enough', runs'⟩ := ends.exists_enough
    obtain ⟨enough'', runs''⟩ := ends'.exists_enough
    have same := alike (max enough (max enough' enough'')) (by omega)
    rwa [runs' _ (by omega), runs'' _ (by omega)] at same

/-- The second half uses a name that the first one binds, and then fails to bind it again. -/
theorem run_at_once_failure :
    SameAnswer ((mk .withConstants).run 20 ("x: 5" ++ "\n" ++ "add[1 x]\nx: 6")).1
      (((mk .withConstants).run 20 "x: 5").2.run 20 "add[1 x]\nx: 6").1 := by
  have result : ((mk .withConstants).run 20 "x: 5").1 = .ok (some "5") := by decide +kernel
  have first : (mk .withConstants).Ends "x: 5" ((mk .withConstants).run 20 "x: 5").1
      ((mk .withConstants).run 20 "x: 5").2 := by
    apply ends_of_uncut
    rw [result]
    rintro ⟨⟩
  rw [result] at first
  have parsed : (Source.parse .withConstants "add[1 x]\nx: 6").1 =
      .ok [[.name 0, .tuple 0], [.name 2, .assignment, .scalar .int 1]] := by
    decide +kernel
  have uncut : ((mk .withConstants).run 20 ("x: 5" ++ "\n" ++ "add[1 x]\nx: 6")).1 ≠
      .error .depthExceeded := by
    decide +kernel
  have uncut' : (((mk .withConstants).run 20 "x: 5").2.run 20 "add[1 x]\nx: 6").1 ≠
      .error .depthExceeded := by
    decide +kernel
  exact ((run_at_once .withConstants first parsed (List.cons_ne_nil _ _)).2 _ _ _ _
    (ends_of_uncut uncut) (ends_of_uncut uncut')).1

end Session

end Tacit
