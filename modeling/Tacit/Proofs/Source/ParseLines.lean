import Tacit.Proofs.Source.Makes
import Tacit.Proofs.Source.ScanLines

/-!
Parsing line by line. At the end of a source nothing is remembered but its sentences, and where a
lexeme stands matters only by comparison with its neighbours. So two sources that are parsed one
after the other are parsed at once, with a newline between them.

* `Parser.feed_shift`: lexemes from further down are parsed alike.
* `parse_append`: two sources at once, with the same words in the same slots.
* `parse_append_iff`: and in no other way.
-/

namespace Tacit

namespace Source

/-! ### Parsing further down

What the parser remembers, asks for and is, so many lines and places further down. -/

section Shift

variable (lines places : Nat)

def Level.shift (l : Level) : Level :=
  ⟨l.reversed, l.lastName.map fun last => (last.1 + places, last.2)⟩

def OpenGroup.shift (g : OpenGroup) : OpenGroup := ⟨g.shape, g.line + lines, g.outer.shift places⟩

def OpenArray.shift (a : OpenArray) : OpenArray := ⟨a.line + lines, a.elements⟩

/-- What the parser is further down, with the sentences of the lines above. -/
def Parser.shift (above : List Sentence) (q : Parser) : Parser where
  store := q.store
  sentences := q.sentences ++ above
  level := q.level.shift places
  groups := q.groups.map (OpenGroup.shift lines places)
  array := q.array.map (OpenArray.shift lines)

def Action.shift : Action → Action
  | .make d => .make d
  | .name text stop => .name text (stop + places)
  | .mark w => .mark w
  | .openGroup shape line => .openGroup shape (line + lines)
  | .closeGroup group outer =>
    .closeGroup (group.shift lines places) (outer.map (OpenGroup.shift lines places))
  | .collect array => .collect (array.shift lines)
  | .endSentence => .endSentence

theorem Level.connection_shift (l : Level) (start : Nat) :
    (l.shift places).connection (start + places) = l.connection start := by
  rw [connection, connection, shift]
  cases l.lastName with
  | none => rfl
  | some last => simp

theorem Parser.closing?_shift (above : List Sentence) (q : Parser) (symbol : Symbol) :
    (q.shift lines places above).closing? symbol =
      (q.closing? symbol).map (Action.shift lines places) := by
  rw [closing?, closing?, shift]
  cases q.groups with
  | nil => rfl
  | cons group outer =>
    simp only [List.map_cons, OpenGroup.shift]
    split <;> rfl

theorem Parser.symbolAction_shift (above : List Sentence) (q : Parser) (symbol : Symbol)
    (line start : Nat) :
    (q.shift lines places above).symbolAction symbol (line + lines) (start + places) =
      shiftOutcome lines (Action.shift lines places) (q.symbolAction symbol line start) := by
  cases symbol with
  | newline =>
    simp only [symbolAction, shift]
    cases q.groups <;> rfl
  | colon | openParen | openBrace => rfl
  | openBracket =>
    have connected := q.level.connection_shift places start
    simp only [symbolAction, shift, connected]
    rfl
  | bar =>
    simp only [symbolAction, closing?_shift]
    cases q.closing? .bar <;> rfl
  | closeParen | closeBracket | closeBrace =>
    simp only [symbolAction, closing?_shift]
    cases q.closing? _ <;> rfl

/-- Whether a lexeme may stand in an array literal does not depend on its line and place. -/
theorem Parser.elementAction_shift (array : OpenArray) (l : Lexeme) :
    elementAction (array.shift lines) (shiftLexeme lines places l) =
      shiftOutcome lines (Action.shift lines places) (elementAction array l) := by
  obtain ⟨token, text, line, start⟩ := l
  obtain ⟨opened, elements⟩ := array
  cases token with
  | literal e x =>
    cases elements with
    | empty => rfl
    | some e' reversed =>
      simp only [elementAction, OpenArray.shift, shiftLexeme]
      split <;> rfl
  | symbol symbol =>
    cases symbol with
    | closeParen => cases elements <;> rfl
    | _ => rfl
  | name | placeholder => rfl

/-- What a lexeme asks for moves with its line and place, and with the lines of what is open. -/
theorem Parser.action_shift (above : List Sentence) (q : Parser) (l : Lexeme) :
    (q.shift lines places above).action (shiftLexeme lines places l) =
      shiftOutcome lines (Action.shift lines places) (q.action l) := by
  rw [action, action]
  cases inside : q.array with
  | some array =>
    simp only [shift, inside, Option.map_some]
    exact elementAction_shift lines places array l
  | none =>
    simp only [shift, inside, Option.map_none, wordAction, shiftLexeme]
    cases l.token with
    | literal | placeholder => rfl
    | name text => simp only [Lexeme.stop, shiftOutcome, Action.shift, Nat.add_right_comm]
    | symbol symbol => exact symbolAction_shift lines places above q symbol l.line l.start

/-- Doing what is asked for leaves the sentences above as they are. -/
theorem Parser.apply_shift (above : List Sentence) (q : Parser) (a : Action) :
    (q.shift lines places above).apply (a.shift lines places) =
      (q.apply a).shift lines places above := by
  cases a with
  | make | name | mark | openGroup | closeGroup | collect => rfl
  | endSentence =>
    simp only [apply, Action.shift, endSentence_eq]
    simp [shift, Level.shift, Level.words, Level.empty]

/-- What is read further up is read further down, and comes to the same. -/
theorem Parser.feed_shift (above : List Sentence) (q : Parser) (lexemes : List Lexeme) :
    (q.shift lines places above).feed (lexemes.map (shiftLexeme lines places)) =
      ((q.feed lexemes).1.shift lines places above,
        (q.feed lexemes).2.map fun e => { e with line := e.line + lines }) := by
  induction lexemes generalizing q with
  | nil => rfl
  | cons l rest ih =>
    rw [List.map_cons, feed, feed, action_shift]
    cases q.action l with
    | error e => rfl
    | ok a =>
      simp only [shiftOutcome, apply_shift]
      exact ih (q.apply a)

/-- At the end of the source, the sentences above come first, and an error moves with its line. -/
theorem Parser.finish_shift (above : List Sentence) (q : Parser) :
    (q.shift lines places above).finish =
      shiftOutcome lines (above.reverse ++ ·) q.finish := by
  simp only [finish, shift]
  cases q.array with
  | some array => rfl
  | none =>
    cases q.groups with
    | cons group outer => rfl
    | nil => simp [shiftOutcome, endSentence_eq, Level.shift, Level.words]

end Shift

/-! ### Two sources at once -/

/-- A source is parsed if it is scanned, each lexeme is accepted and nothing is open at the end. -/
theorem parse_eq_ok_iff {s s' : Store} {source : String} {sentences : List Sentence} :
    parse s source = (.ok sentences, s') ↔ ∃ lexemes q, scan source = .ok lexemes ∧
      (Parser.start s).feed lexemes = (q, none) ∧ q.finish = .ok sentences ∧ q.store = s' := by
  rw [parse]
  cases scan source with
  | error e => simp
  | ok lexemes =>
    simp only [parseLexemes]
    cases fed : (Parser.start s).feed lexemes with
    | mk q e => cases e <;> simp [fed]

/-- No line without words makes a sentence. -/
theorem Parser.nil_notMem_endSentence {q : Parser} (h : [] ∉ q.sentences) :
    [] ∉ q.endSentence.sentences := by
  rw [endSentence_eq, List.mem_append, not_or]
  refine ⟨?_, h⟩
  simp

theorem Parser.nil_notMem_apply {q : Parser} (h : [] ∉ q.sentences) (a : Action) :
    [] ∉ (q.apply a).sentences := by
  cases a with
  | endSentence => exact nil_notMem_endSentence h
  | _ => exact h

theorem Parser.nil_notMem_feed {q r : Parser} {lexemes : List Lexeme}
    (fed : q.feed lexemes = (r, none)) : [] ∉ q.sentences → [] ∉ r.sentences := by
  apply feed_induct (P := fun q _ => [] ∉ q.sentences → [] ∉ r.sentences) id ?_ fed
  intro q l a rest _ ih full
  exact ih (nil_notMem_apply full a)

/-- No sentence of a parse is empty. -/
theorem nil_notMem_of_parse {s s' : Store} {source : String} {sentences : List Sentence}
    (h : parse s source = (.ok sentences, s')) : [] ∉ sentences := by
  obtain ⟨lexemes, q, -, fed, finished, -⟩ := parse_eq_ok_iff.mp h
  have full := Parser.nil_notMem_feed fed (by simp [Parser.start])
  rw [Parser.finish] at finished
  split at finished
  · cases finished
  · cases finished
  · cases finished
    rw [List.mem_reverse]
    exact Parser.nil_notMem_endSentence full

theorem Parser.feed_append {q r : Parser} {lexemes : List Lexeme} (h : q.feed lexemes = (r, none))
    (later : List Lexeme) : q.feed (lexemes ++ later) = r.feed later := by
  obtain ⟨made, run⟩ := feed_eq_none_iff.mp h
  exact run.feed_append later

/-- What is read before other lexemes is read alone. -/
theorem Parser.exists_of_feed_append {q r : Parser} {lexemes later : List Lexeme}
    (h : q.feed (lexemes ++ later) = (r, none)) :
    ∃ p, q.feed lexemes = (p, none) ∧ p.feed later = (r, none) := by
  induction lexemes generalizing q with
  | nil => exact ⟨q, rfl, h⟩
  | cons l rest ih =>
    rw [List.cons_append, feed] at h
    rw [feed]
    cases action : q.action l with
    | ok a =>
      rw [action] at h
      exact ih h
    | error e =>
      rw [action] at h
      cases h

/-- At the end of a source the parser is ready for a newline, and then for another source. -/
theorem Parser.feed_newline {q : Parser} {sentences : List Sentence} (h : q.finish = .ok sentences)
    {newline : Lexeme} (token : newline.token = .symbol .newline) (later : List Lexeme)
    (lines places : Nat) : q.feed (newline :: later) =
      ((Parser.start q.store).shift lines places sentences.reverse).feed later := by
  rw [finish] at h
  split at h
  · cases h
  · cases h
  · next outside closed =>
    cases h
    have asks : Asks q newline .endSentence := .newline outside closed token
    rw [feed_of_action asks.action]
    simp [apply, endSentence_eq, shift, start, outside, closed, Level.shift, Level.empty]

/-- Only at what could be the end of a source is a newline read. -/
theorem Parser.exists_finish_of_newline {q : Parser} {newline : Lexeme} {a : Action}
    (token : newline.token = .symbol .newline) (h : q.action newline = .ok a) :
    ∃ sentences, q.finish = .ok sentences := by
  rw [action] at h
  cases inside : q.array with
  | some array =>
    rw [inside] at h
    simp [elementAction, token] at h
  | none =>
    cases opened : q.groups with
    | cons group outer => simp [inside, wordAction, token, symbolAction, opened] at h
    | nil => exact ⟨q.endSentence.sentences.reverse, by simp only [finish, inside, opened]⟩

/-- What is read from a newline on is read by itself as another source. -/
theorem Parser.exists_of_feed_newline {q r : Parser} {newline : Lexeme} {later : List Lexeme}
    {lines places : Nat} (token : newline.token = .symbol .newline)
    (h : q.feed (newline :: later.map (shiftLexeme lines places)) = (r, none)) :
    ∃ sentences p, q.finish = .ok sentences ∧ (Parser.start q.store).feed later = (p, none) ∧
      r = p.shift lines places sentences.reverse := by
  cases action : q.action newline with
  | error e =>
    rw [feed, action] at h
    cases h
  | ok next =>
    obtain ⟨sentences, finished⟩ := exists_finish_of_newline token action
    rw [feed_newline finished token _ lines places, feed_shift] at h
    obtain ⟨is, none⟩ := Prod.mk.inj h
    refine ⟨sentences, _, finished, ?_, is.symm⟩
    exact Prod.ext rfl (Option.map_eq_none_iff.mp none)

/-- Sources that are parsed one after the other are parsed at once, with a newline between them. -/
theorem parse_append {s s' s'' : Store} {a b : String} {sentences later : List Sentence}
    (ha : parse s a = (.ok sentences, s')) (hb : parse s' b = (.ok later, s'')) :
    parse s (a ++ "\n" ++ b) = (.ok (sentences ++ later), s'') := by
  obtain ⟨lexemes, q, scanned, fed, finished, rfl⟩ := parse_eq_ok_iff.mp ha
  obtain ⟨lexemes', r, scanned', fed', finished', rfl⟩ := parse_eq_ok_iff.mp hb
  obtain ⟨newline, lines, places, token, joined⟩ := exists_scan_append a
  refine parse_eq_ok_iff.mpr
    ⟨_, r.shift lines places sentences.reverse, by rw [joined, scanned, scanned']; rfl, ?_, ?_, rfl⟩
  · rw [Parser.feed_append fed, Parser.feed_newline finished token, Parser.feed_shift, fed']
    rfl
  · rw [Parser.finish_shift, finished', List.reverse_reverse]
    rfl

/-- Two sources with a newline between them are accepted exactly if each is when they are parsed
one after the other; and then they have the same sentences, word for word, and leave the same
store. -/
theorem parse_append_iff (s s'' : Store) (a b : String) (sentences : List Sentence) :
    parse s (a ++ "\n" ++ b) = (.ok sentences, s'') ↔ ∃ first s' later,
      parse s a = (.ok first, s') ∧ parse s' b = (.ok later, s'') ∧ sentences = first ++ later := by
  constructor
  · intro h
    obtain ⟨lexemes, r, scanned, fed, finished, rfl⟩ := parse_eq_ok_iff.mp h
    obtain ⟨newline, lines, places, token, joined⟩ := exists_scan_append a
    rw [joined] at scanned
    cases scannedA : scan a with
    | error e =>
      rw [scannedA] at scanned
      cases scanned
    | ok lexemesA =>
      rw [scannedA] at scanned
      obtain ⟨lexemesB, scannedB, rfl⟩ := shiftOutcome_eq_ok_iff.mp scanned
      obtain ⟨q, fedA, fed⟩ := Parser.exists_of_feed_append fed
      obtain ⟨first, p, finishedA, fedB, rfl⟩ := Parser.exists_of_feed_newline token fed
      rw [Parser.finish_shift, List.reverse_reverse] at finished
      obtain ⟨later, finishedB, rfl⟩ := shiftOutcome_eq_ok_iff.mp finished
      exact ⟨first, q.store, later,
        parse_eq_ok_iff.mpr ⟨_, _, scannedA, fedA, finishedA, rfl⟩,
        parse_eq_ok_iff.mpr ⟨_, _, scannedB, fedB, finishedB, rfl⟩, rfl⟩
  · rintro ⟨first, s', later, parsedA, parsedB, rfl⟩
    exact parse_append parsedA parsedB

end Source

end Tacit
