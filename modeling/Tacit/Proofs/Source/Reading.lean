import Tacit.Proofs.Source.Written

/-!
Reading lexemes one at a time: what an accepted lexeme asks for, and what each lexeme of a run of
the parser makes.

* `asks_of_action`, `Asks.action`: a lexeme is accepted where it asks for something, and that is
  done.
* `Run`: lexemes that are read, each with the value it makes.
* `feed_eq_none_iff`: what is read without an error is a run.
* `Run.store_eq`: after a run the store has the values that its lexemes make, and nothing else.
* `store_parseLexemes`: the store that a parse leaves, whether it fails or not.
-/

namespace Tacit

namespace Source

/-! ### Groups -/

def Shape.enclosure : Shape → Enclosure
  | .tuple _ => .brackets
  | .block => .braces
  | .executor => .bars

theorem Shape.closer_enclosure (shape : Shape) : shape.enclosure.closer = shape.closer := by
  cases shape <;> rfl

theorem Enclosure.enclosure_shape (k : Enclosure) (connectedName : Option Nat) :
    (k.shape connectedName).enclosure = k := by
  cases k <;> rfl

theorem Enclosure.closer_shape (k : Enclosure) (connectedName : Option Nat) :
    (k.shape connectedName).closer = k.closer := by
  cases k <;> rfl

namespace Parser

/-- What encloses the words that are being read, innermost first. -/
def stack (q : Parser) : List Enclosure := q.groups.map fun group => group.shape.enclosure

/-- A bar opens an executor exactly where it cannot close one. -/
theorem closing?_bar_eq_none_iff {q : Parser} :
    q.closing? .bar = none ↔ q.stack.head? ≠ some .bars := by
  rw [closing?, stack]
  cases q.groups with
  | nil => simp
  | cons group outer =>
    obtain ⟨shape, line, level⟩ := group
    cases shape <;> simp [Shape.closer, Shape.enclosure]

/-- A symbol closes a group if it is the closing symbol of the innermost one. -/
theorem closing?_eq_some_iff {q : Parser} {symbol : Symbol} {a : Action} :
    q.closing? symbol = some a ↔
      ∃ group outer, q.groups = group :: outer ∧ group.shape.closer = symbol ∧
        a = .closeGroup group outer := by
  rw [closing?]
  cases q.groups with
  | nil => simp
  | cons group outer =>
    by_cases closes : group.shape.closer = symbol
    · simp [closes, eq_comm]
    · simp [closes]

/-! ### Accepted lexemes -/

/-- What an accepted lexeme asks for: outside array literals, and inside one. -/
inductive Asks (q : Parser) (l : Lexeme) : Action → Prop where
  | literal {e : Elem} {x : e.Carrier} (outside : q.array = none) (token : l.token = .literal e x) :
      Asks q l (.make (.scalar e x))
  | name {text : String} (outside : q.array = none) (token : l.token = .name text) :
      Asks q l (.name text l.stop)
  | placeholder {number : Nat} (outside : q.array = none)
      (token : l.token = .placeholder number) : Asks q l (.mark (.placeholder number))
  | colon (outside : q.array = none) (token : l.token = .symbol .colon) :
      Asks q l (.mark .assignment)
  | openArray (outside : q.array = none) (token : l.token = .symbol .openParen) :
      Asks q l (.collect ⟨l.line, .empty⟩)
  | openGroup {k : Enclosure} (outside : q.array = none) (token : l.token = .symbol k.opener)
      (opens : k = .bars → q.stack.head? ≠ some .bars) :
      Asks q l (.openGroup (k.shape (q.level.connection l.start)) l.line)
  | closeGroup {group : OpenGroup} {outer : List OpenGroup} (outside : q.array = none)
      (groups : q.groups = group :: outer) (token : l.token = .symbol group.shape.closer) :
      Asks q l (.closeGroup group outer)
  | newline (outside : q.array = none) (groups : q.groups = [])
      (token : l.token = .symbol .newline) : Asks q l .endSentence
  | first {e : Elem} {x : e.Carrier} {line : Nat} (inside : q.array = some ⟨line, .empty⟩)
      (token : l.token = .literal e x) : Asks q l (.collect ⟨line, .some e [x]⟩)
  | next {e : Elem} {x : e.Carrier} {line : Nat} {reversed : List e.Carrier}
      (inside : q.array = some ⟨line, .some e reversed⟩) (token : l.token = .literal e x) :
      Asks q l (.collect ⟨line, .some e (x :: reversed)⟩)
  | closeArray {e : Elem} {line : Nat} {reversed : List e.Carrier}
      (inside : q.array = some ⟨line, .some e reversed⟩)
      (token : l.token = .symbol .closeParen) : Asks q l (.make (.array e reversed.reverse))

variable {q : Parser} {l : Lexeme} {a : Action}

theorem asks_of_closing {symbol : Symbol} (outside : q.array = none)
    (token : l.token = .symbol symbol) (h : q.closing? symbol = some a) : Asks q l a := by
  obtain ⟨group, outer, groups, rfl, rfl⟩ := closing?_eq_some_iff.mp h
  exact .closeGroup outside groups token

theorem asks_of_symbolAction {symbol : Symbol} (outside : q.array = none)
    (token : l.token = .symbol symbol) (h : q.symbolAction symbol l.line l.start = .ok a) :
    Asks q l a := by
  cases symbol with
  | newline =>
    simp only [symbolAction] at h
    split at h
    · next groups =>
      cases h
      exact .newline outside groups token
    · cases h
  | colon =>
    cases h
    exact .colon outside token
  | openParen =>
    cases h
    exact .openArray outside token
  | openBracket =>
    cases h
    exact .openGroup (k := .brackets) outside token (by rintro ⟨⟩)
  | openBrace =>
    cases h
    exact .openGroup (k := .braces) outside token (by rintro ⟨⟩)
  | bar =>
    simp only [symbolAction] at h
    cases closes : q.closing? .bar with
    | some action =>
      rw [closes] at h
      cases h
      exact asks_of_closing outside token closes
    | none =>
      rw [closes] at h
      cases h
      exact .openGroup (k := .bars) outside token fun _ => closing?_bar_eq_none_iff.mp closes
  | closeParen | closeBracket | closeBrace =>
    simp only [symbolAction] at h
    split at h
    · next closes =>
      cases h
      exact asks_of_closing outside token closes
    · cases h

/-- Every action that the parser takes is one that the lexeme asks for. -/
theorem asks_of_action (h : q.action l = .ok a) : Asks q l a := by
  rw [action] at h
  split at h
  · next array inside =>
    obtain ⟨line, elements⟩ := array
    rw [elementAction] at h
    split at h
    · next e x token =>
      cases elements with
      | empty =>
        cases h
        exact .first inside token
      | some e' reversed =>
        simp only at h
        split at h
        · next same =>
          subst same
          cases h
          exact .next inside token
        · cases h
    · next token =>
      cases elements with
      | empty => cases h
      | some e reversed =>
        cases h
        exact .closeArray inside token
    · cases h
    · cases h
  · next outside =>
    rw [wordAction] at h
    split at h
    · next token =>
      cases h
      exact .literal outside token
    · next token =>
      cases h
      exact .name outside token
    · next token =>
      cases h
      exact .placeholder outside token
    · next token => exact asks_of_symbolAction outside token h

/-- What a lexeme asks for is what the parser does. -/
theorem Asks.action (h : Asks q l a) : q.action l = .ok a := by
  rw [Parser.action]
  cases h with
  | literal outside token | name outside token | placeholder outside token =>
    simp only [outside, wordAction, token]
  | colon outside token | openArray outside token =>
    simp only [outside, wordAction, token, symbolAction]
  | @openGroup k outside token opens =>
    cases k with
    | brackets | braces =>
      simp only [outside, wordAction, token]
      rfl
    | bars =>
      have none := closing?_bar_eq_none_iff.mpr (opens rfl)
      simp only [outside, wordAction, token, Enclosure.opener, symbolAction, none]
      rfl
  | @closeGroup group outer outside groups token =>
    have closes : q.closing? group.shape.closer = some (.closeGroup group outer) :=
      closing?_eq_some_iff.mpr ⟨_, _, groups, rfl, rfl⟩
    simp only [outside, wordAction, token]
    cases shape : group.shape with
    | tuple | block | executor =>
      rw [shape, Shape.closer] at closes
      simp [Shape.closer, symbolAction, closes]
  | newline outside groups token =>
    simp only [outside, wordAction, token, symbolAction, groups]
  | first inside token | closeArray inside token =>
    simp only [inside, elementAction, token]
  | next inside token => simp [inside, elementAction, token]

/-! ### Effects -/

/-- The words of a line are a sentence if there are any. -/
theorem endSentence_eq (p : Parser) : p.endSentence =
    { p with
      level := .empty
      sentences := [p.level.words].filter (!·.isEmpty) ++ p.sentences } := by
  rw [endSentence]
  cases p.level.words <;> simp

/-- The value that an action makes, if it makes one. -/
def value (q : Parser) : Action → Option Value
  | .make d => some (.datum d)
  | .name text _ => some (.name text)
  | .closeGroup group _ => some (group.shape.value q.level.words)
  | .mark _ => none
  | .openGroup .. => none
  | .collect _ => none
  | .endSentence => none

/-- An action stores the value that it makes, if it makes one. -/
theorem store_apply (q : Parser) (a : Action) :
    (q.apply a).store = q.store.createAll (q.value a).toList := by
  cases a with
  | endSentence =>
    rw [apply, endSentence_eq]
    rfl
  | _ => rfl

/-! ### Runs -/

theorem feed_of_action {p : Parser} {l : Lexeme} {a : Action} (h : p.action l = .ok a)
    (rest : List Lexeme) : p.feed (l :: rest) = (p.apply a).feed rest := by
  rw [feed, h]

/-- What holds where all lexemes are read, and before each lexeme that is read if it holds behind
it, holds where the reading begins. -/
theorem feed_induct {r : Parser} {P : Parser → List Lexeme → Prop} (nil : P r [])
    (cons : ∀ {q : Parser} {l : Lexeme} {a : Action} {rest : List Lexeme}, q.action l = .ok a →
      P (q.apply a) rest → P q (l :: rest))
    {q : Parser} {lexemes : List Lexeme} (h : q.feed lexemes = (r, none)) : P q lexemes := by
  induction lexemes generalizing q with
  | nil =>
    cases h
    exact nil
  | cons l rest ih =>
    rw [feed] at h
    split at h
    · next a action => exact cons action (ih h)
    · cases h

/-- The lexemes are read one after the other, and each makes the value that stands beside it, or
none. -/
inductive Run : Parser → List Lexeme → List (Option Value) → Parser → Prop where
  | nil (q : Parser) : Run q [] [] q
  | cons {q r : Parser} {l : Lexeme} {a : Action} {rest : List Lexeme} {made : List (Option Value)}
      (asks : Asks q l a) (later : Run (q.apply a) rest made r) :
      Run q (l :: rest) (q.value a :: made) r

variable {r r' p : Parser} {lexemes later : List Lexeme} {made made' : List (Option Value)}

theorem Run.single (asks : Asks q l a) : Run q [l] [q.value a] (q.apply a) :=
  .cons asks (.nil _)

/-- Runs are composed, and what they make comes in the order of the lexemes. -/
theorem Run.append (h : Run q lexemes made r) (h' : Run r later made' p) :
    Run q (lexemes ++ later) (made ++ made') p := by
  induction h with
  | nil => exact h'
  | cons asks _ ih => exact .cons asks (ih h')

theorem Run.feed_append (h : Run q lexemes made r) (later : List Lexeme) :
    q.feed (lexemes ++ later) = r.feed later := by
  induction h with
  | nil => rfl
  | cons asks _ ih => rw [List.cons_append, feed_of_action asks.action, ih]

/-- What is read without an error is a run. -/
theorem feed_eq_none_iff : q.feed lexemes = (r, none) ↔ ∃ made, Run q lexemes made r := by
  constructor
  · intro h
    apply feed_induct (P := fun q lexemes => ∃ made, Run q lexemes made r) ⟨[], .nil r⟩ ?_ h
    rintro q l a rest action ⟨made, run⟩
    exact ⟨_, .cons (asks_of_action action) run⟩
  · rintro ⟨made, run⟩
    have fed := run.feed_append []
    rwa [List.append_nil] at fed

/-- What the first lexemes of a run make does not depend on those behind them. -/
theorem Run.take (h : Run q lexemes made r) {made' : List (Option Value)}
    (h' : Run q (lexemes ++ later) made' p) : made = made'.take lexemes.length := by
  induction h generalizing made' with
  | nil => rfl
  | cons asks _ ih =>
    cases h' with
    | cons asks' run =>
      cases asks.action.symm.trans asks'.action
      rw [List.length_cons, List.take_succ_cons, ← ih run]

/-- After a run the store has the values that its lexemes make, and nothing else. -/
theorem Run.store_eq (h : Run q lexemes made r) :
    r.store = q.store.createAll made.reduceOption := by
  induction h with
  | nil => rfl
  | @cons q r l a rest made asks run ih =>
    rw [ih, store_apply, ← Store.createAll_append, ← List.reduceOption_singleton,
      ← List.reduceOption_append, List.singleton_append]

end Parser

/-- Whether it fails or not, a parse leaves the store that the lexemes read so far leave. -/
theorem store_parseLexemes (s : Store) (lexemes : List Lexeme) :
    (parseLexemes s lexemes).2 = ((Parser.start s).feed lexemes).1.store := by
  rw [parseLexemes]
  split
  · next eq => rw [eq]
  · next eq => rw [eq]

end Source

end Tacit
