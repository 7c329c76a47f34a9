import Tacit.Proofs.Source.Makes
import Tacit.Proofs.Store.Tree

/-!
Parsing the same source into two stores. The slots of the new values differ, since the columns
differ in length, but whatever the parser remembers is alike up to deep values, and it decides
the same at every lexeme.

* `parse_alike`: two well-formed stores stay well-formed, the same error is told or sentences are
  given whose words have the same deep values.
-/

namespace Tacit

namespace Source

variable {s s' r r' : Store}

/-! ### Parsers that remember the same -/

def SameName (s s' : Store) (i i' : Nat) : Prop :=
  ∃ text : String, s.names[i]? = some text ∧ s'.names[i']? = some text

theorem SameName.mono (grows : s.GrowsTo r) (grows' : s'.GrowsTo r') {i i' : Nat}
    (h : SameName s s' i i') : SameName r r' i i' := by
  obtain ⟨text, found, found'⟩ := h
  exact ⟨text, grows.name found, grows'.name found'⟩

/-- Shapes of the same sort, connected to the same name if to any. -/
inductive Shape.Alike (s s' : Store) : Shape → Shape → Prop where
  | tuple {slot slot' : Option Nat} : Option.Rel (SameName s s') slot slot' →
      Alike s s' (.tuple slot) (.tuple slot')
  | block : Alike s s' .block .block
  | executor : Alike s s' .executor .executor

/-- Word lists of the same deep values, with the same name at the end. -/
structure Level.Alike (s s' : Store) (l l' : Level) : Prop where
  words : List.Forall₂ (Store.SameValue s s') l.reversed l'.reversed
  lastName : Option.Rel (fun last last' => last.1 = last'.1 ∧ SameName s s' last.2 last'.2)
    l.lastName l'.lastName

structure OpenGroup.Alike (s s' : Store) (g g' : OpenGroup) : Prop where
  shape : Shape.Alike s s' g.shape g'.shape
  line : g.line = g'.line
  outer : Level.Alike s s' g.outer g'.outer

/-- Parsers at the same place of a source, each with its own store. -/
structure Parser.Alike (p p' : Parser) : Prop where
  wellFormed : p.store.WellFormed
  wellFormed' : p'.store.WellFormed
  sentences : List.Forall₂ (List.Forall₂ (Store.SameValue p.store p'.store)) p.sentences
    p'.sentences
  level : Level.Alike p.store p'.store p.level p'.level
  groups : List.Forall₂ (OpenGroup.Alike p.store p'.store) p.groups p'.groups
  array : p.array = p'.array

/-- Actions that do the same in two stores. -/
inductive Action.Alike (s s' : Store) : Action → Action → Prop where
  | make (d : Datum) : Alike s s' (.make d) (.make d)
  | name (text : String) (stop : Nat) : Alike s s' (.name text stop) (.name text stop)
  | mark {w : Word} : Store.SameValue s s' w w → Alike s s' (.mark w) (.mark w)
  | openGroup {shape shape' : Shape} {line : Nat} : Shape.Alike s s' shape shape' →
      Alike s s' (.openGroup shape line) (.openGroup shape' line)
  | closeGroup {g g' : OpenGroup} {outer outer' : List OpenGroup} : OpenGroup.Alike s s' g g' →
      List.Forall₂ (OpenGroup.Alike s s') outer outer' →
      Alike s s' (.closeGroup g outer) (.closeGroup g' outer')
  | collect (a : OpenArray) : Alike s s' (.collect a) (.collect a)
  | endSentence : Alike s s' .endSentence .endSentence

section Mono

variable (grows : s.GrowsTo r) (grows' : s'.GrowsTo r')

include grows grows'

theorem Shape.Alike.mono {shape shape' : Shape} (h : Shape.Alike s s' shape shape') :
    Shape.Alike r r' shape shape' := by
  cases h with
  | tuple connected => exact .tuple (rel_imp (fun _ _ => SameName.mono grows grows') connected)
  | block => exact .block
  | executor => exact .executor

theorem sameValues_mono {words words' : List Word}
    (h : List.Forall₂ (Store.SameValue s s') words words') :
    List.Forall₂ (Store.SameValue r r') words words' :=
  h.imp fun _ _ => Store.SameValue.mono grows grows'

theorem Level.Alike.mono {l l' : Level} (h : Level.Alike s s' l l') : Level.Alike r r' l l' where
  words := sameValues_mono grows grows' h.words
  lastName := rel_imp (fun _ _ last => ⟨last.1, last.2.mono grows grows'⟩) h.lastName

theorem OpenGroup.Alike.mono {g g' : OpenGroup} (h : OpenGroup.Alike s s' g g') :
    OpenGroup.Alike r r' g g' :=
  ⟨h.shape.mono grows grows', h.line, h.outer.mono grows grows'⟩

end Mono

theorem Level.alike_empty (s s' : Store) : Level.Alike s s' .empty .empty := ⟨.nil, .none⟩

theorem Level.Alike.push {l l' : Level} (h : Level.Alike s s' l l') {w w' : Word}
    (same : Store.SameValue s s' w w') : Level.Alike s s' (l.push w) (l'.push w') :=
  ⟨.cons same h.words, .none⟩

theorem Level.Alike.pushName {l l' : Level} (h : Level.Alike s s' l l') {i i' : Nat}
    (same : SameName s s' i i') (stop : Nat) :
    Level.Alike s s' (l.pushName i stop) (l'.pushName i' stop) := by
  obtain ⟨text, found, found'⟩ := id same
  exact ⟨.cons ⟨_, .name found, .name found'⟩ h.words, .some ⟨rfl, same⟩⟩

theorem Level.Alike.sentence {l l' : Level} (h : Level.Alike s s' l l') :
    List.Forall₂ (Store.SameValue s s') l.words l'.words :=
  List.rel_reverse h.words

/-- Groups of one shape that hold the same words have the same deep value. -/
theorem Shape.Alike.value {shape shape' : Shape} (h : Shape.Alike s s' shape shape')
    {words words' : List Word} (same : List.Forall₂ (Store.SameValue s s') words words') :
    ∃ t, s.UnfoldsValue (shape.value words) t ∧ s'.UnfoldsValue (shape'.value words') t := by
  obtain ⟨items, left, right⟩ := Store.exists_items same
  cases h with
  | tuple connected =>
    cases connected with
    | none => exact ⟨.tuple none items, .tuple .none left, .tuple .none right⟩
    | some same =>
      obtain ⟨text, found, found'⟩ := same
      exact ⟨.tuple (some text) items, .tuple (.some found) left, .tuple (.some found') right⟩
  | block => exact ⟨.block items, .block left, .block right⟩
  | executor => exact ⟨.executor items, .executor left, .executor right⟩

/-! ### Decisions -/

theorem Level.Alike.connection {l l' : Level} (h : Level.Alike s s' l l') (start : Nat) :
    Option.Rel (SameName s s') (l.connection start) (l'.connection start) := by
  rw [Level.connection, Level.connection]
  rcases rel_cases h.lastName with ⟨none, none'⟩ | ⟨⟨stop, i⟩, ⟨_, i'⟩, last, last', rfl, same⟩
  · rw [none, none']
    exact .none
  · rw [last, last']
    by_cases here : stop = start
    · simp only [if_pos here]
      exact .some same
    · simp only [if_neg here]
      exact .none

theorem Shape.Alike.closer_eq {shape shape' : Shape} (h : Shape.Alike s s' shape shape') :
    shape.closer = shape'.closer := by
  cases h <;> rfl

theorem Parser.Alike.closing? {p p' : Parser} (h : p.Alike p') (symbol : Symbol) :
    Option.Rel (Action.Alike p.store p'.store) (p.closing? symbol) (p'.closing? symbol) := by
  rw [Parser.closing?, Parser.closing?]
  rcases related_cases h.groups with ⟨none, none'⟩ | ⟨g, _, g', _, opened, opened', first, outer⟩
  · rw [none, none']
    exact .none
  · simp only [opened, opened', first.shape.closer_eq]
    split
    · exact .some (.closeGroup first outer)
    · exact .none

/-- Outside of array literals, parsers that are alike refuse the same symbols, with the same
errors. -/
theorem Parser.Alike.symbolAction {p p' : Parser} (h : p.Alike p') (symbol : Symbol)
    (line start : Nat) :
    OutcomeRel Eq (Action.Alike p.store p'.store) (p.symbolAction symbol line start)
      (p'.symbolAction symbol line start) := by
  cases symbol with
  | newline =>
    rw [Parser.symbolAction, Parser.symbolAction]
    rcases related_cases h.groups with ⟨none, none'⟩ | ⟨g, _, g', _, opened, opened', first, -⟩
    · rw [none, none']
      exact .ok .endSentence
    · rw [opened, opened']
      exact .error (by simp only [Parser.unterminated, first.shape.closer_eq])
  | colon => exact .ok (.mark ⟨_, .assignment, .assignment⟩)
  | openParen => exact .ok (.collect _)
  | openBracket => exact .ok (.openGroup (.tuple (h.level.connection start)))
  | openBrace => exact .ok (.openGroup .block)
  | bar =>
    rw [Parser.symbolAction, Parser.symbolAction]
    rcases rel_cases (h.closing? .bar) with ⟨none, none'⟩ | ⟨a, a', closes, closes', alike⟩
    · rw [none, none']
      exact .ok (.openGroup .executor)
    · rw [closes, closes']
      exact .ok alike
  | closeParen | closeBracket | closeBrace =>
    rw [Parser.symbolAction, Parser.symbolAction]
    rcases rel_cases (h.closing? _) with ⟨none, none'⟩ | ⟨a, a', closes, closes', alike⟩
    · rw [none, none']
      exact .error rfl
    · rw [closes, closes']
      exact .ok alike

/-- Inside an array literal nothing is remembered that a store has a say in. -/
theorem elementAction_alike (s s' : Store) (a : OpenArray) (l : Lexeme) :
    OutcomeRel Eq (Action.Alike s s') (Parser.elementAction a l) (Parser.elementAction a l) := by
  cases h : Parser.elementAction a l with
  | error e => exact .error rfl
  | ok action =>
    rw [Parser.elementAction] at h
    refine .ok ?_
    repeat' split at h
    all_goals cases h
    all_goals first | exact .collect _ | exact .make _

/-- What a lexeme asks for is alike in parsers that are alike. -/
theorem Parser.Alike.action {p p' : Parser} (h : p.Alike p') (l : Lexeme) :
    OutcomeRel Eq (Action.Alike p.store p'.store) (p.action l) (p'.action l) := by
  rw [Parser.action, Parser.action, ← h.array]
  cases p.array with
  | some a => exact elementAction_alike _ _ a l
  | none =>
    simp only [Parser.wordAction]
    cases l.token with
    | literal e x => exact .ok (.make _)
    | name text => exact .ok (.name text _)
    | placeholder n => exact .ok (.mark ⟨_, .placeholder, .placeholder⟩)
    | symbol s => exact h.symbolAction s _ _

/-! ### Effects -/

theorem Parser.Alike.endSentence {p p' : Parser} (h : p.Alike p') :
    p.endSentence.Alike p'.endSentence := by
  rw [Parser.endSentence, Parser.endSentence]
  rcases related_cases h.level.sentence with ⟨empty, empty'⟩ | ⟨_, _, _, _, eq, eq', first, rest⟩
  · rw [empty, empty']
    exact { h with level := Level.alike_empty _ _ }
  · rw [eq, eq']
    exact { h with
      level := Level.alike_empty _ _
      sentences := .cons (.cons first rest) h.sentences }

/-- New values of the same deep value, one in each store, and words of theirs that come last. -/
theorem Parser.Alike.create {p p' : Parser} (h : p.Alike p') {v v' : Value} {t : Tree}
    (unfolds : p.store.UnfoldsValue v t) (unfolds' : p'.store.UnfoldsValue v' t) {l l' : Level}
    (level : Level.Alike (p.store.create v).2 (p'.store.create v').2 l l')
    {groups groups' : List OpenGroup}
    (outer : List.Forall₂ (OpenGroup.Alike p.store p'.store) groups groups')
    {array array' : Option OpenArray} (same : array = array') :
    Parser.Alike ⟨(p.store.create v).2, p.sentences, l, groups, array⟩
      ⟨(p'.store.create v').2, p'.sentences, l', groups', array'⟩ := by
  have grows := Store.growsTo_create p.store v
  have grows' := Store.growsTo_create p'.store v'
  exact {
    wellFormed := h.wellFormed.create_of_unfolds unfolds
    wellFormed' := h.wellFormed'.create_of_unfolds unfolds'
    sentences := h.sentences.imp fun _ _ => sameValues_mono grows grows'
    level := level
    groups := outer.imp fun _ _ => OpenGroup.Alike.mono grows grows'
    array := same }

/-- What is asked for keeps parsers alike: what they make has the same deep value. -/
theorem Parser.Alike.apply {p p' : Parser} (h : p.Alike p') {a a' : Action}
    (alike : Action.Alike p.store p'.store a a') : (p.apply a).Alike (p'.apply a') := by
  cases alike with
  | make d =>
    have grows := Store.growsTo_create p.store (.datum d)
    have grows' := Store.growsTo_create p'.store (.datum d)
    exact h.create .datum .datum
      ((h.level.mono grows grows').push ⟨_, Store.UnfoldsValue.datum.create,
        Store.UnfoldsValue.datum.create⟩) h.groups rfl
  | name text stop =>
    have grows := Store.growsTo_create p.store (.name text)
    have grows' := Store.growsTo_create p'.store (.name text)
    have same : SameName (p.store.create (.name text)).2 (p'.store.create (.name text)).2
        p.store.names.size p'.store.names.size :=
      ⟨text, by simp [Store.create], by simp [Store.create]⟩
    exact h.create .name .name ((h.level.mono grows grows').pushName same stop) h.groups h.array
  | mark same => exact { h with level := h.level.push same }
  | openGroup shape =>
    exact { h with
      level := Level.alike_empty _ _
      groups := .cons ⟨shape, rfl, h.level⟩ h.groups }
  | @closeGroup g g' _ _ group outer =>
    obtain ⟨t, unfolds, unfolds'⟩ := group.shape.value h.level.sentence
    have grows := Store.growsTo_create p.store (g.shape.value p.level.words)
    have grows' := Store.growsTo_create p'.store (g'.shape.value p'.level.words)
    exact h.create unfolds unfolds'
      ((group.outer.mono grows grows').push ⟨t, unfolds.create, unfolds'.create⟩) outer h.array
  | collect a => exact { h with array := rfl }
  | endSentence => exact h.endSentence

/-- Parsers that are alike stop at the same lexeme with the same error, or not at all. -/
theorem Parser.Alike.feed {p p' : Parser} (h : p.Alike p') (lexemes : List Lexeme) :
    (p.feed lexemes).1.Alike (p'.feed lexemes).1 ∧
      (p.feed lexemes).2 = (p'.feed lexemes).2 := by
  induction lexemes generalizing p p' with
  | nil => exact ⟨h, rfl⟩
  | cons l rest ih =>
    rw [Parser.feed, Parser.feed]
    rcases (h.action l).cases with ⟨a, a', acts, acts', alike⟩ | ⟨e, e', fails, fails', eq⟩
    · rw [acts, acts']
      exact ih (h.apply alike)
    · rw [fails, fails']
      exact ⟨h, congrArg some eq⟩

theorem store_endSentence (p : Parser) : p.endSentence.store = p.store := by
  rw [Parser.endSentence_eq]

/-- At the end of the source, parsers that are alike report the same unclosed opening, or give
sentences of the same deep values. -/
theorem Parser.Alike.finish {p p' : Parser} (h : p.Alike p') :
    OutcomeRel Eq (List.Forall₂ (List.Forall₂ (Store.SameValue p.store p'.store))) p.finish
      p'.finish := by
  rw [Parser.finish, Parser.finish, ← h.array]
  cases p.array with
  | some a => exact .error rfl
  | none =>
    rcases related_cases h.groups with ⟨none, none'⟩ | ⟨g, _, g', _, opened, opened', first, -⟩
    · rw [none, none']
      have sentences := h.endSentence.sentences
      rw [store_endSentence, store_endSentence] at sentences
      exact .ok (List.rel_reverse sentences)
    · rw [opened, opened']
      exact .error (by simp only [Parser.unterminated, first.shape.closer_eq, first.line])

theorem Parser.alike_start (h : s.WellFormed) (h' : s'.WellFormed) :
    (Parser.start s).Alike (Parser.start s') :=
  ⟨h, h', .nil, Level.alike_empty _ _, .nil, rfl⟩

/-- Parsing the same source into two stores. -/
structure ParsedAlike (r r' : Except ParseError (List Sentence) × Store) : Prop where
  wellFormed : r.2.WellFormed
  wellFormed' : r'.2.WellFormed
  outcome : OutcomeRel Eq (List.Forall₂ (List.Forall₂ (Store.SameValue r.2 r'.2))) r.1 r'.1

/-- What a source says does not depend on the store that it is parsed into. -/
theorem parse_alike (h : s.WellFormed) (h' : s'.WellFormed) (source : String) :
    ParsedAlike (parse s source) (parse s' source) := by
  rw [parse, parse]
  cases scan source with
  | error e => exact ⟨h, h', .error rfl⟩
  | ok lexemes =>
    obtain ⟨alike, same⟩ := (Parser.alike_start h h').feed lexemes
    simp only [parseLexemes]
    revert alike same
    generalize (Parser.start s).feed lexemes = r, (Parser.start s').feed lexemes = r'
    obtain ⟨p, e⟩ := r
    obtain ⟨p', e'⟩ := r'
    intro alike same
    change e = e' at same
    subst same
    cases e with
    | some e => exact ⟨alike.wellFormed, alike.wellFormed', .error rfl⟩
    | none => exact ⟨alike.wellFormed, alike.wellFormed', alike.finish⟩

/-- A parse keeps the store well-formed, also one that fails. -/
theorem wellFormed_parse (h : s.WellFormed) (source : String) : (parse s source).2.WellFormed :=
  (parse_alike h h source).wellFormed

/-- The sentences of a source are made of words that stand for something. -/
theorem valid_of_parse (h : s.WellFormed) {source : String} {sentences : List Sentence}
    (parsed : (parse s source).1 = .ok sentences) :
    ∀ sentence ∈ sentences, ∀ w ∈ sentence, (parse s source).2.Valid w := by
  have outcome := (parse_alike h h source).outcome
  rw [parsed] at outcome
  cases outcome with
  | ok same =>
    refine forall_mem_of_related same fun words => ?_
    exact forall_mem_of_related words fun ⟨_, unfolds, _⟩ => unfolds.valid

end Source

end Tacit
