import Tacit.Proofs.Eval.Report
import Tacit.Proofs.Session.Reachable

/-!
What a session can be told by. Two sessions that bind the same names to the same deep values
answer every source alike, and are then alike again, whatever else their stores hold.

* `run_alike`: one source in two such sessions.
* `answers_alike`: any number of sources, one after the other.
* `listing_eq`: the listings of two such sessions.
-/

namespace Tacit

/-- The same names are bound in both stores, to words of the same deep values. -/
def Store.SameBindings (s s' : Store) : Prop :=
  ∀ name, Option.Rel (Store.SameValue s s') (s.lookup name) (s'.lookup name)

namespace Store

variable {s s' r r' : Store}

theorem SameBindings.refl (h : s.WellFormed) : s.SameBindings s := by
  intro name
  cases found : s.lookup name with
  | none => exact .none
  | some w =>
    obtain ⟨t, unfolds⟩ := h.exists_unfolds (valid_of_lookup h found)
    exact .some ⟨t, unfolds, unfolds⟩

theorem SameBindings.symm (h : s.SameBindings s') : s'.SameBindings s := by
  intro name
  rcases rel_cases (h name) with ⟨free, free'⟩ | ⟨w, w', bound, bound', same⟩
  · rw [free, free']
    exact .none
  · rw [bound, bound']
    exact .some same.symm

/-- Growth without new bindings. -/
theorem SameBindings.mono (h : s.SameBindings s') (grows : s.GrowsTo r) (grows' : s'.GrowsTo r')
    (same : ∀ name, r.lookup name = s.lookup name)
    (same' : ∀ name, r'.lookup name = s'.lookup name) : r.SameBindings r' := by
  intro name
  rw [same, same']
  exact rel_imp (fun _ _ => SameValue.mono grows grows') (h name)

/-- Stores with the same bindings show scenes that differ in the pending assignment at most. -/
theorem SameBindings.exists_env (h : s.SameBindings s') (wellFormed : s.WellFormed)
    (wellFormed' : s'.WellFormed) :
    ∃ env, s.Shows ⟨env, s.pending⟩ ∧ s'.Shows ⟨env, s'.pending⟩ := by
  choose env left right using fun name => rel_common_iff.mp (h name)
  exact ⟨env, ⟨wellFormed, left, rfl⟩, ⟨wellFormed', right, rfl⟩⟩

/-- Stores that show scenes with the same bindings have the same deep bindings. -/
theorem Shows.sameBindings {c c' : Scene} (h : s.Shows c) (h' : s'.Shows c')
    (same : c.env = c'.env) : s.SameBindings s' := by
  intro name
  have right := h'.env name
  rw [← same] at right
  exact rel_common_iff.mpr ⟨c.env name, h.env name, right⟩

end Store

/-! ### Evaluation -/

/-- An assignment that was left pending is forgotten before the first sentence. -/
theorem Deep.execute_pending (depth : Nat) (trees : List (List Tree))
    (env : String → Option Tree) (p p' : Bool) :
    Deep.execute depth trees ⟨env, p⟩ = Deep.execute depth trees ⟨env, p'⟩ := by
  cases trees with
  | nil => rfl
  | cons items rest => rfl

namespace Session

/-- Answers that tell the user the same. -/
inductive SameAnswer : Except SessionError (Option String) → Except SessionError (Option String) →
    Prop where
  | result (text : Option String) : SameAnswer (.ok text) (.ok text)
  | parse (e : ParseError) : SameAnswer (.error (.parse e)) (.error (.parse e))
  /-- The errors are about different slots, but are of one kind and have one report. -/
  | eval {e e' : EvalError} {report : String} : e.kind = e'.kind →
      SameAnswer (.error (.eval e report)) (.error (.eval e' report))
  | depthExceeded : SameAnswer (.error .depthExceeded) (.error .depthExceeded)

/-- Executions that agree with one and the same evaluation of trees end alike. -/
theorem answer_alike {s s' : Store} {m m' : Eval (Option Word)}
    {r : EStateM.Result Scene.Failure Scene (Option Tree)}
    (left : Eval.Agrees (fun s => Option.Rel s.Unfolds) s (m s) r)
    (right : Eval.Agrees (fun s => Option.Rel s.Unfolds) s' (m' s') r) :
    SameAnswer (answer (m s)) (answer (m' s')) ∧ (m.after s).SameBindings (m'.after s') := by
  rw [Eval.after, Eval.after]
  revert left right
  generalize m s = a, m' s' = a'
  intro left right
  cases left with
  | ok _ same value =>
    cases right with
    | ok _ same' value' =>
      refine ⟨?_, same.sameBindings same' rfl⟩
      cases value with
      | none =>
        cases value'
        exact .result none
      | some unfolds =>
        cases value' with
        | some unfolds' =>
          simp only [answer, resultText, unfolds.display, unfolds'.display]
          exact .result _
  | @error e kind _ _ _ _ same eq words =>
    cases right with
    | @error e' _ _ _ _ _ same' eq' words' =>
      refine ⟨?_, same.sameBindings same' rfl⟩
      simp only [answer, failure, EvalError.report_of_unfolds words,
        EvalError.report_of_unfolds words', eq, eq']
      exact .eval (eq.trans eq'.symm)
  | depthExceeded _ same =>
    cases right with
    | depthExceeded _ same' => exact ⟨.depthExceeded, same.sameBindings same' rfl⟩

/-- One source in two sessions with the same bindings. -/
theorem run_alike {s s' : Store} (wellFormed : s.WellFormed) (wellFormed' : s'.WellFormed)
    (same : s.SameBindings s') (depth : Nat) (source : String) :
    SameAnswer ((mk s).run depth source).1 ((mk s').run depth source).1 ∧
      ((mk s).run depth source).2.store.SameBindings ((mk s').run depth source).2.store := by
  have parsed := Source.parse_alike wellFormed wellFormed' source
  have makes := Source.makes_parse s source
  have makes' := Source.makes_parse s' source
  have bindings : (Source.parse s source).2.SameBindings (Source.parse s' source).2 :=
    same.mono makes.growsTo makes'.growsTo makes.lookup_eq makes'.lookup_eq
  revert parsed bindings
  generalize found : Source.parse s source = r, found' : Source.parse s' source = r'
  obtain ⟨outcome, t⟩ := r
  obtain ⟨outcome', t'⟩ := r'
  rintro ⟨wellFormed, wellFormed', alike⟩ bindings
  cases alike with
  | @error e _ eq =>
    subst eq
    rw [run_of_refused found, run_of_refused found']
    exact ⟨.parse e, bindings⟩
  | ok sentences =>
    obtain ⟨trees, left, right⟩ := exists_common (fun words => Store.exists_items words) sentences
    obtain ⟨env, shows, shows'⟩ := bindings.exists_env wellFormed wellFormed'
    have agrees := Eval.agrees_execute depth shows left
    have agrees' := Eval.agrees_execute depth shows' right
    rw [Deep.execute_pending depth trees env t'.pending t.pending] at agrees'
    rw [run_of_parsed found, run_of_parsed found']
    exact answer_alike agrees agrees'

/-! ### Listings -/

def UnfoldsEntry (s : Store) (entry : String × Word) (named : String × Tree) : Prop :=
  entry.1 = named.1 ∧ s.Unfolds entry.2 named.2

/-- The listing is the names with the texts of their deep values. -/
theorem listBindings_of_unfolds {s : Store} {named : List (String × Tree)}
    (h : List.Forall₂ (UnfoldsEntry s) s.bindings named) :
    s.listBindings = .ok (named.map fun entry => (entry.1, String.ofList entry.2.text)) := by
  refine mapM_eq_ok h fun entry tree related => ?_
  obtain ⟨name, w⟩ := entry
  obtain ⟨name', t⟩ := tree
  obtain ⟨rfl, unfolds⟩ := related
  simp only [unfolds.display]
  rfl

/-- The listing depends on the deep bindings only, and is never refused. -/
theorem listing_eq {s s' : Store} (sorted : s.bindings.Sorted) (sorted' : s'.bindings.Sorted)
    (same : s.SameBindings s') :
    (mk s).listing = (mk s').listing ∧ (mk s).listing.isOk = true := by
  obtain ⟨named, left, right⟩ : ∃ named, List.Forall₂ (UnfoldsEntry s) s.bindings named ∧
      List.Forall₂ (UnfoldsEntry s') s'.bindings named := by
    refine exists_common (fun {entry entry'} related => ?_)
      (Bindings.related_of_lookup sorted sorted' same)
    obtain ⟨eq, t, unfolds, unfolds'⟩ := related
    exact ⟨(entry.1, t), ⟨rfl, unfolds⟩, eq.symm, unfolds'⟩
  rw [listing, listing, listBindings_of_unfolds left, listBindings_of_unfolds right]
  exact ⟨rfl, rfl⟩

/-! ### Several sources -/

def answers (depth : Nat) (session : Session) :
    List String → List (Except SessionError (Option String))
  | [] => []
  | source :: later =>
    (session.run depth source).1 :: (session.run depth source).2.answers depth later

/-- Stores with the same deep bindings give the same answers to any sources, one after the other. -/
theorem answers_alike {s s' : Store} (reachable : s.Reachable) (reachable' : s'.Reachable)
    (same : s.SameBindings s') (depth : Nat) (sources : List String) :
    List.Forall₂ SameAnswer ((mk s).answers depth sources) ((mk s').answers depth sources) := by
  induction sources generalizing s s' with
  | nil => exact .nil
  | cons source later ih =>
    obtain ⟨answer, bindings⟩ :=
      run_alike reachable.wellFormed reachable'.wellFormed same depth source
    exact .cons answer (ih (reachable.run depth source) (reachable'.run depth source) bindings)

theorem SameAnswer.symm {a a' : Except SessionError (Option String)} (h : SameAnswer a a') :
    SameAnswer a' a := by
  cases h with
  | result text => exact .result text
  | parse e => exact .parse e
  | eval eq => exact .eval eq.symm
  | depthExceeded => exact .depthExceeded

/-- Of two answers that are the same, neither or both are cut off. -/
theorem SameAnswer.uncut {a a' : Except SessionError (Option String)} (h : SameAnswer a a')
    (uncut : a ≠ .error .depthExceeded) : a' ≠ .error .depthExceeded := by
  cases h with
  | result | parse | eval => exact fun eq => nomatch eq
  | depthExceeded => exact absurd rfl uncut

section Ends

variable {s s' : Store} {source : String} {a a' : Except SessionError (Option String)}
  {t t' : Session}

/-- Whether a run ends depends on the deep bindings only. -/
theorem Ends.exists_of_sameBindings (h : (mk s).Ends source a t) (wellFormed : s.WellFormed)
    (wellFormed' : s'.WellFormed) (same : s.SameBindings s') :
    ∃ a' t', (mk s').Ends source a' t' := by
  obtain ⟨uncut, depth, eq⟩ := h
  have answer := (run_alike wellFormed wellFormed' same depth source).1
  rw [eq] at answer
  exact ⟨_, _, ends_of_uncut (answer.uncut uncut)⟩

/-- What a run answers and leaves bound depends on the deep bindings only. -/
theorem Ends.alike (h : (mk s).Ends source a t) (h' : (mk s').Ends source a' t')
    (wellFormed : s.WellFormed) (wellFormed' : s'.WellFormed) (same : s.SameBindings s') :
    SameAnswer a a' ∧ t.store.SameBindings t'.store := by
  obtain ⟨uncut, depth, eq⟩ := h
  obtain ⟨answer, bindings⟩ := run_alike wellFormed wellFormed' same depth source
  rw [eq] at answer bindings
  have eq' := h'.run_eq (answer.uncut uncut)
  rw [eq'] at answer bindings
  exact ⟨answer, bindings⟩

theorem Ends.reachable (h : (mk s).Ends source a t) (reachable : s.Reachable) :
    t.store.Reachable := by
  obtain ⟨-, depth, eq⟩ := h
  have later := reachable.run depth source
  rwa [eq] at later

end Ends

/-- A source that is refused, or that binds nothing new, leaves the bindings as they were. -/
theorem sameBindings_run {s : Store} (reachable : s.Reachable) {depth : Nat} {source : String}
    (h : (∃ e, (Source.parse s source).1 = .error e) ∨
      ∀ name, ((mk s).run depth source).2.store.lookup name = s.lookup name) :
    ((mk s).run depth source).2.store.SameBindings s := by
  have same : ∀ name, ((mk s).run depth source).2.store.lookup name = s.lookup name := by
    rcases h with ⟨e, refused⟩ | same
    · intro name
      rw [store_run, refused]
      exact (Source.makes_parse s source).lookup_eq name
    · exact same
  exact (Store.SameBindings.refl reachable.wellFormed).mono (growsTo_run depth s source) (.refl s)
    same fun _ => rfl

/-- Sessions that bind the same names to the same deep values cannot be told apart: a source comes
to an end in both or in neither, and then the answers, the deep values bound afterwards and the
listings are the same. So a source that is refused, or that binds nothing new, can be left out
without changing a later answer. -/
theorem runs_depend_on_deep_values {s s' : Store} (reachable : s.Reachable)
    (reachable' : s'.Reachable) (same : s.SameBindings s') :
    (∀ source, (∃ a t, (mk s).Ends source a t) ↔ ∃ a t, (mk s').Ends source a t) ∧
    (∀ source a t a' t', (mk s).Ends source a t → (mk s').Ends source a' t' →
      SameAnswer a a' ∧ t.store.SameBindings t'.store ∧ t.listing = t'.listing ∧
        t.listing.isOk = true) ∧
    (∀ depth source, ((∃ e, (Source.parse s source).1 = .error e) ∨
        ∀ name, ((mk s).run depth source).2.store.lookup name = s.lookup name) →
      ∀ depth' later, List.Forall₂ SameAnswer
        (((mk s).run depth source).2.answers depth' later) ((mk s).answers depth' later)) := by
  have wellFormed := reachable.wellFormed
  have wellFormed' := reachable'.wellFormed
  refine ⟨fun source => ⟨?_, ?_⟩, ?_, ?_⟩
  · rintro ⟨a, t, ends⟩
    exact ends.exists_of_sameBindings wellFormed wellFormed' same
  · rintro ⟨a, t, ends⟩
    exact ends.exists_of_sameBindings wellFormed' wellFormed same.symm
  · intro source a t a' t' ends ends'
    obtain ⟨answer, bindings⟩ := ends.alike ends' wellFormed wellFormed' same
    have sorted := (ends.reachable reachable).sorted
    have sorted' := (ends'.reachable reachable').sorted
    exact ⟨answer, bindings, listing_eq sorted sorted' bindings⟩
  · intro depth source h depth' later
    exact answers_alike (reachable.run depth source) reachable (sameBindings_run reachable h)
      depth' later

/-- The numbers that a refused source has left behind are not noticed. -/
theorem runs_depend_on_deep_values_leftover :
    SameAnswer ((mk .withConstants).run 20 "add[1 2]").1
      ((mk (Source.parse .withConstants "[1 2").2).run 20 "add[1 2]").1 := by
  have reachable : Store.withConstants.Reachable := .withConstants
  have reachable' := reachable.parse "[1 2"
  have makes := Source.makes_parse .withConstants "[1 2"
  have same : Store.withConstants.SameBindings (Source.parse .withConstants "[1 2").2 :=
    (Store.SameBindings.refl reachable.wellFormed).mono (.refl _) makes.growsTo (fun _ => rfl)
      makes.lookup_eq
  have uncut : ((mk .withConstants).run 20 "add[1 2]").1 ≠ .error .depthExceeded := by
    decide +kernel
  have uncut' : ((mk (Source.parse .withConstants "[1 2").2).run 20 "add[1 2]").1 ≠
      .error .depthExceeded := by
    decide +kernel
  exact ((runs_depend_on_deep_values reachable reachable' same).2.1 _ _ _ _ _ (ends_of_uncut uncut)
    (ends_of_uncut uncut')).1

end Session

end Tacit
