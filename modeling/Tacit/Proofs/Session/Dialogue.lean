import Tacit.Proofs.Session.Observation
import Tacit.Repl

/-!
Dialogues, cut into parts. What is answered before a line does not depend on it, and what is
answered behind it depends only on the session and the history that it leaves. The command that
clears leaves those of a new dialogue, and a query leaves what it finds.

* `run_append`: a dialogue goes on from where its first part has come to.
* `dialogue_clear`, `dialogue_query`: dialogues with such a line somewhere in them.
* `clear_and_queries`: to clear is to begin anew, and a query is noticed by nothing but its reply.
-/

namespace Tacit

def Command.isQuery : Command → Bool
  | .internal | .history | .clearScreen | .empty => true
  | .exit | .clear | .source _ => false

namespace Dialogue

def append (d d' : Dialogue) : Dialogue := ⟨d.replies ++ d'.replies, d'.final, d'.ending⟩

def cons (reply : Reply) (d : Dialogue) : Dialogue := { d with replies := reply :: d.replies }

section Texts

variable (d d' : Dialogue) (reply : Reply)

/-- What is printed is what each line printed. -/
theorem out_eq : d.out "" = String.join (d.replies.map Reply.out) := by
  simp [out]

/-- Dialogues print one after the other. -/
theorem out_append : (d.append d').out "" = d.out "" ++ d'.out "" := by
  simp [out_eq, append]

theorem err_append : (d.append d').err = d.err ++ d'.err := by
  simp [err, append]

theorem out_cons : (cons reply d).out "" = reply.out ++ d.out "" := by
  simp [out_eq, cons]

theorem err_cons : (cons reply d).err = reply.err ++ d.err := by
  simp [err, cons]

end Texts

/-! ### Parts of a dialogue -/

variable {depth : Nat} {r r' : Repl} {line : String} {reply : Reply}
  {before rest : List (Option String)}

theorem run_of_answer (h : r.answer depth (.ofLine line) = some (r', reply)) :
    run depth r (some line :: rest) = cons reply (run depth r' rest) := by
  rw [run, h]
  rfl

/-- Behind an exit no line is answered. -/
theorem run_of_exit (h : r.answer depth (.ofLine line) = none) :
    run depth r (some line :: rest) = ⟨[], r, .exit⟩ := by
  rw [run, h]

/-- A dialogue that has not ended goes on from where it has come to. -/
theorem run_append (going : (run depth r before).ending = .endOfInput) :
    run depth r (before ++ rest) =
      (run depth r before).append (run depth (run depth r before).final rest) := by
  induction before generalizing r with
  | nil => rfl
  | cons entry before ih =>
    cases entry with
    | none => cases going
    | some line =>
      cases answer : r.answer depth (.ofLine line) with
      | none =>
        rw [run_of_exit answer] at going
        cases going
      | some next =>
        rw [run_of_answer answer] at going ⊢
        rw [List.cons_append, run_of_answer answer, ih going]
        rfl

/-- Nothing is answered behind the end of a dialogue. -/
theorem run_append_of_ended (ended : (run depth r before).ending ≠ .endOfInput) :
    run depth r (before ++ rest) = run depth r before := by
  induction before generalizing r with
  | nil => exact absurd rfl ended
  | cons entry before ih =>
    cases entry with
    | none => rfl
    | some line =>
      cases answer : r.answer depth (.ofLine line) with
      | none => rw [List.cons_append, run_of_exit answer, run_of_exit answer]
      | some next =>
        rw [run_of_answer answer] at ended ⊢
        rw [List.cons_append, run_of_answer answer, ih ended]

/-- Every command but an exit is answered. -/
theorem answer_isSome {command : Command} (stays : command ≠ .exit) :
    ∃ r' reply, r.answer depth command = some (r', reply) := by
  cases command with
  | exit => exact absurd rfl stays
  | internal =>
    rw [Repl.answer]
    cases r.session.listing <;> exact ⟨_, _, rfl⟩
  | clear | clearScreen | history | empty | source => exact ⟨_, _, rfl⟩

/-- A dialogue goes on while no line asks for its end. -/
theorem ending_eq_endOfInput {lines : List String} (stays : ∀ l ∈ lines, Command.ofLine l ≠ .exit) :
    (run depth r (lines.map some)).ending = .endOfInput := by
  induction lines generalizing r with
  | nil => rfl
  | cons line lines ih =>
    obtain ⟨first, later⟩ := List.forall_mem_cons.mp stays
    obtain ⟨r', reply, answer⟩ := answer_isSome first
    rw [List.map_cons, run_of_answer answer]
    exact ih later

/-! ### Queries -/

/-- An answer leaves a store that a session can reach. -/
theorem answer_reachable {command : Command} (reachable : r.session.store.Reachable)
    (h : r.answer depth command = some (r', reply)) : r'.session.store.Reachable := by
  cases command with
  | exit => cases h
  | clear =>
    cases h
    exact .withConstants
  | internal =>
    rw [Repl.answer] at h
    split at h <;> cases h <;> exact reachable
  | clearScreen | history | empty =>
    cases h
    exact reachable
  | source text =>
    cases h
    exact reachable.run depth text

/-- So does a dialogue. -/
theorem final_reachable (depth : Nat) (reachable : r.session.store.Reachable)
    (lines : List (Option String)) :
    (run depth r lines).final.session.store.Reachable := by
  induction lines generalizing r with
  | nil => exact reachable
  | cons entry lines ih =>
    cases entry with
    | none => exact reachable
    | some line =>
      cases answer : r.answer depth (.ofLine line) with
      | none =>
        rw [run_of_exit answer]
        exact reachable
      | some next =>
        rw [run_of_answer answer]
        exact ih (answer_reachable reachable answer)

/-- A query shows something and leaves everything as it is. -/
theorem answer_query (depth : Nat) {command : Command} (reachable : r.session.store.Reachable)
    (query : command.isQuery = true) :
    ∃ reply, r.answer depth command = some (r, reply) ∧ reply.err = "" := by
  cases command with
  | internal =>
    have listed := (Session.listing_eq reachable.sorted reachable.sorted
      (Store.SameBindings.refl reachable.wellFormed)).2
    rw [Repl.answer]
    cases listing : r.session.listing with
    | ok text => exact ⟨_, rfl, rfl⟩
    | error f =>
      change r.session.listing.isOk = true at listed
      rw [listing] at listed
      cases listed
  | clearScreen | history | empty => exact ⟨_, rfl, rfl⟩
  | exit | clear | source => cases query

end Dialogue

/-! ### Lines of text -/

namespace Session

open Dialogue hiding run

def dialogue (depth : Nat) (session : Session) (lines : List String) : Dialogue :=
  .run depth ⟨session, []⟩ (lines.map some)

/-- What is written in answer to a line that comes behind others: nothing, if the dialogue is over
by then. -/
def replyTo (depth : Nat) (session : Session) (before : List String) (line : String) : Reply :=
  let d := session.dialogue depth before
  match d.ending, d.final.answer depth (.ofLine line) with
  | .endOfInput, some (_, reply) => reply
  | _, _ => .silent

variable {depth : Nat} {session : Session} {line : String} {before rest : List String}

theorem replyTo_of_ended (ended : (session.dialogue depth before).ending ≠ .endOfInput) :
    session.replyTo depth before line = .silent := by
  simp only [replyTo]
  split
  · next going _ => exact absurd going ended
  · rfl

theorem replyTo_of_answer {r : Repl} {reply : Reply}
    (going : (session.dialogue depth before).ending = .endOfInput)
    (answer : (session.dialogue depth before).final.answer depth (.ofLine line) =
      some (r, reply)) : session.replyTo depth before line = reply := by
  simp only [replyTo, going, answer]

/-- Lines are answered from where the lines before them left the session. -/
theorem dialogue_append (going : (session.dialogue depth before).ending = .endOfInput) :
    session.dialogue depth (before ++ rest) = (session.dialogue depth before).append
      (.run depth (session.dialogue depth before).final (rest.map some)) := by
  rw [dialogue, List.map_append]
  exact run_append going

theorem dialogue_append_of_ended
    (ended : (session.dialogue depth before).ending ≠ .endOfInput) :
    session.dialogue depth (before ++ rest) = session.dialogue depth before := by
  rw [dialogue, List.map_append]
  exact run_append_of_ended ended

/-- A clear goes on with an initial session, and prints nothing. -/
theorem dialogue_clear (stays : ∀ l ∈ before, Command.ofLine l ≠ .exit)
    (clears : Command.ofLine line = .clear) : session.dialogue depth (before ++ line :: rest) =
      (session.dialogue depth before).append (cons .silent (initial.dialogue depth rest)) := by
  have answer : (session.dialogue depth before).final.answer depth (.ofLine line) =
      some (.initial, .silent) := by
    rw [clears, Repl.answer]
  rw [dialogue_append (ending_eq_endOfInput stays), List.map_cons, run_of_answer answer]
  rfl

/-- Without the query, the same is written but for the reply to it, and the dialogue comes to the
same. -/
theorem dialogue_query (reachable : session.store.Reachable)
    (query : (Command.ofLine line).isQuery = true) : ∃ later,
      (session.dialogue depth (before ++ line :: rest)).out "" =
        (session.dialogue depth before).out "" ++ (session.replyTo depth before line).out ++
          later ∧
      (session.dialogue depth (before ++ rest)).out "" =
        (session.dialogue depth before).out "" ++ later ∧
      (session.dialogue depth (before ++ line :: rest)).err =
        (session.dialogue depth (before ++ rest)).err ∧
      (session.dialogue depth (before ++ line :: rest)).final =
        (session.dialogue depth (before ++ rest)).final := by
  by_cases going : (session.dialogue depth before).ending = .endOfInput
  · have final : (session.dialogue depth before).final.session.store.Reachable :=
      final_reachable depth reachable (before.map some)
    obtain ⟨reply, answer, silent⟩ := answer_query depth final query
    refine ⟨(Dialogue.run depth (session.dialogue depth before).final (rest.map some)).out "", ?_⟩
    rw [replyTo_of_answer going answer, dialogue_append going, dialogue_append going,
      List.map_cons, run_of_answer answer, out_append, out_append, err_append, err_append,
      out_cons, err_cons, silent, String.append_assoc, String.empty_append]
    exact ⟨rfl, rfl, rfl, rfl⟩
  · refine ⟨"", ?_⟩
    rw [replyTo_of_ended going, dialogue_append_of_ended going, dialogue_append_of_ended going]
    simp [Reply.silent]

/-- To clear is to begin anew: behind it, everything is as in a new dialogue. And a query is
noticed by nothing but its reply. -/
theorem clear_and_queries (depth : Nat) :
    (∀ (session : Session) (before rest : List String) (line : String),
      (∀ l ∈ before, Command.ofLine l ≠ .exit) → Command.ofLine line = .clear →
      (session.dialogue depth (before ++ line :: rest)).out "" =
        (session.dialogue depth before).out "" ++ (initial.dialogue depth rest).out "" ∧
      (session.dialogue depth (before ++ line :: rest)).err =
        (session.dialogue depth before).err ++ (initial.dialogue depth rest).err ∧
      (session.dialogue depth (before ++ line :: rest)).final =
        (initial.dialogue depth rest).final) ∧
    ∀ (session : Session) (before rest : List String) (line : String),
      session.store.Reachable → (Command.ofLine line).isQuery = true → ∃ later,
      (session.dialogue depth (before ++ line :: rest)).out "" =
        (session.dialogue depth before).out "" ++ (session.replyTo depth before line).out ++
          later ∧
      (session.dialogue depth (before ++ rest)).out "" =
        (session.dialogue depth before).out "" ++ later ∧
      (session.dialogue depth (before ++ line :: rest)).err =
        (session.dialogue depth (before ++ rest)).err ∧
      (session.dialogue depth (before ++ line :: rest)).final =
        (session.dialogue depth (before ++ rest)).final := by
  refine ⟨?_, fun session before rest line => dialogue_query⟩
  intro session before rest line stays clears
  rw [dialogue_clear stays clears, out_append, err_append, out_cons, err_cons]
  simp only [Reply.silent, String.empty_append]
  exact ⟨trivial, trivial, rfl⟩

/-- A bound name is forgotten with the history, and a listing is noticed by nothing else. -/
theorem clear_and_queries_lines :
    (initial.dialogue 20 ["x: 5", "inc x", " .clear ", "inc x", ".history"]).out "" =
      "5\n6\n" ++ "inc x\n" ∧
    (initial.dialogue 20 ["x: 5", ".internal", "inc x"]).err =
      (initial.dialogue 20 ["x: 5", "inc x"]).err ∧
    (initial.dialogue 20 ["x: 5", ".internal", "inc x"]).final =
      (initial.dialogue 20 ["x: 5", "inc x"]).final := by
  have stays : ∀ l ∈ ["x: 5", "inc x"], Command.ofLine l ≠ .exit := by decide +kernel
  have clears : Command.ofLine " .clear " = .clear := by decide +kernel
  have query : (Command.ofLine ".internal").isQuery = true := by decide +kernel
  have first : (initial.dialogue 20 ["x: 5", "inc x"]).out "" = "5\n6\n" := by decide +kernel
  have second : (initial.dialogue 20 ["inc x", ".history"]).out "" = "inc x\n" := by
    decide +kernel
  obtain ⟨cleared, queried⟩ := clear_and_queries 20
  obtain ⟨out, -⟩ := cleared initial ["x: 5", "inc x"] ["inc x", ".history"] " .clear " stays clears
  obtain ⟨-, -, -, err, final⟩ :=
    queried initial ["x: 5"] ["inc x"] ".internal" .withConstants query
  rw [first, second] at out
  exact ⟨out, err, final⟩

end Session

end Tacit
