import Tacit.Store
import Tacit.Source.Scan

/-!
Parsing: lexemes become sentences, one for each line with words on it, while the values they
write are made in a store.

The parser reads one lexeme at a time. What it remembers between two lexemes is the word list it
is in, the groups open around that list and, inside an array literal, the elements so far. Each
lexeme makes at most one value: a literal or name when it is read, an array or group when it is
closed. A refused lexeme makes none, so after an error the store holds exactly what was complete
before it.
-/

namespace Tacit

namespace Source

inductive Shape where
  /-- A tuple is connected to the name in the given slot when its bracket directly follows it. -/
  | tuple (connectedName : Option Nat)
  | block
  | executor
deriving DecidableEq, Repr

namespace Shape

def closer : Shape → Symbol
  | .tuple _ => .closeBracket
  | .block => .closeBrace
  | .executor => .bar

def value : Shape → List Word → Value
  | .tuple connectedName, words => .tuple ⟨words, connectedName⟩
  | .block, words => .block words
  | .executor, words => .executor words

end Shape

structure Level where
  /-- The words so far, last first. -/
  reversed : List Word
  /-- Where the last word ends and its slot, if it is a name. -/
  lastName : Option (Nat × Nat)

namespace Level

def empty : Level := ⟨[], none⟩

def words (l : Level) : List Word := l.reversed.reverse

def push (l : Level) (w : Word) : Level := ⟨w :: l.reversed, none⟩

def pushName (l : Level) (slot stop : Nat) : Level := ⟨.name slot :: l.reversed, some (stop, slot)⟩

/-- The slot of the name that a bracket at the given place is connected to. -/
def connection (l : Level) (start : Nat) : Option Nat :=
  match l.lastName with
  | some (stop, slot) => if stop = start then some slot else none
  | none => none

end Level

structure OpenGroup where
  shape : Shape
  /-- The line of its opening symbol. -/
  line : Nat
  /-- The word list that the group is a word of. -/
  outer : Level

/-- The elements of an array literal so far, last first. The first one fixes their type. -/
inductive Elements where
  | empty
  | some (e : Elem) (reversed : List e.Carrier)

structure OpenArray where
  /-- The line of its opening symbol. -/
  line : Nat
  elements : Elements

structure Parser where
  store : Store
  /-- The sentences of the lines before, last first. -/
  sentences : List Sentence
  level : Level
  /-- The open groups, innermost first. -/
  groups : List OpenGroup
  /-- The array literal being read, if the parser is in one. -/
  array : Option OpenArray

/-- What a lexeme asks for where it stands. -/
inductive Action where
  /-- Make a scalar or an array. -/
  | make (d : Datum)
  /-- Make a name that ends at the given place. -/
  | name (text : String) (stop : Nat)
  /-- Append a marker, for which nothing is made. -/
  | mark (w : Word)
  /-- Begin a group at the given line. -/
  | openGroup (shape : Shape) (line : Nat)
  /-- End the innermost group, with the groups around it. -/
  | closeGroup (group : OpenGroup) (outer : List OpenGroup)
  /-- Begin an array literal, or go on with one. -/
  | collect (array : OpenArray)
  /-- End the line. -/
  | endSentence

namespace Parser

def start (s : Store) : Parser := ⟨s, [], .empty, [], none⟩

/-! ### Decisions -/

/-- A line that ends inside a group is an error, told with the delimiter that is missing. -/
def unterminated (group : OpenGroup) (line : Nat) : ParseError :=
  ⟨.unterminatedGroup group.shape.closer.char, line⟩

/-- The end of the innermost group, if the symbol closes it. -/
def closing? (p : Parser) (s : Symbol) : Option Action :=
  match p.groups with
  | group :: outer => if group.shape.closer = s then some (.closeGroup group outer) else none
  | [] => none

/-- A symbol outside array literals. A closing symbol has to close the innermost group; a bar
closes it if it can, and opens an executor otherwise. -/
def symbolAction (p : Parser) (s : Symbol) (line start : Nat) : Except ParseError Action :=
  match s with
  | .newline =>
    match p.groups with
    | [] => .ok .endSentence
    | group :: _ => .error (unterminated group line)
  | .colon => .ok (.mark .assignment)
  | .openParen => .ok (.collect ⟨line, .empty⟩)
  | .openBracket => .ok (.openGroup (.tuple (p.level.connection start)) line)
  | .openBrace => .ok (.openGroup .block line)
  | .bar => .ok ((p.closing? .bar).getD (.openGroup .executor line))
  | .closeParen | .closeBracket | .closeBrace =>
    match p.closing? s with
    | some action => .ok action
    | none => .error ⟨.unexpectedToken s.text, line⟩

def wordAction (p : Parser) (l : Lexeme) : Except ParseError Action :=
  match l.token with
  | .literal e x => .ok (.make (.scalar e x))
  | .name text => .ok (.name text l.stop)
  | .placeholder n => .ok (.mark (.placeholder n))
  | .symbol s => p.symbolAction s l.line l.start

/-- A lexeme inside an array literal: an element of the type of the others, or the end. -/
def elementAction (a : OpenArray) (l : Lexeme) : Except ParseError Action :=
  match l.token with
  | .literal e x =>
    match a.elements with
    | .empty => .ok (.collect ⟨a.line, .some e [x]⟩)
    | .some e' xs =>
      if h : e = e' then .ok (.collect ⟨a.line, .some e' (h ▸ x :: xs)⟩)
      else .error ⟨.mixedArray, l.line⟩
  | .symbol .closeParen =>
    match a.elements with
    | .empty => .error ⟨.emptyArray, l.line⟩
    | .some e xs => .ok (.make (.array e xs.reverse))
  | .symbol .newline => .error ⟨.unterminatedGroup Symbol.closeParen.char, l.line⟩
  | token => .error ⟨.unexpectedToken token.text, l.line⟩

/-- What a lexeme asks for, or why it is refused. The store has no say in it. -/
def action (p : Parser) (l : Lexeme) : Except ParseError Action :=
  match p.array with
  | some a => elementAction a l
  | none => p.wordAction l

/-! ### Effects -/

/-- Ends a line. A line without words makes no sentence. -/
def endSentence (p : Parser) : Parser :=
  match p.level.words with
  | [] => { p with level := .empty }
  | words => { p with level := .empty, sentences := words :: p.sentences }

/-- Does what a lexeme asks for. -/
def apply (p : Parser) : Action → Parser
  | .make d =>
    let (w, s) := p.store.create (.datum d)
    { p with store := s, level := p.level.push w, array := none }
  | .name text stop =>
    let (w, s) := p.store.create (.name text)
    { p with store := s, level := p.level.pushName w.index stop }
  | .mark w => { p with level := p.level.push w }
  | .openGroup shape line =>
    { p with level := .empty, groups := ⟨shape, line, p.level⟩ :: p.groups }
  | .closeGroup group outer =>
    let (w, s) := p.store.create (group.shape.value p.level.words)
    { p with store := s, level := group.outer.push w, groups := outer }
  | .collect array => { p with array := some array }
  | .endSentence => p.endSentence

def feed (p : Parser) : List Lexeme → Parser × Option ParseError
  | [] => (p, none)
  | l :: rest =>
    match p.action l with
    | .ok a => (p.apply a).feed rest
    | .error e => (p, some e)

/-- The sentences when the source is at its end. A group that is still open is told with the line
it was opened on. -/
def finish (p : Parser) : Except ParseError (List Sentence) :=
  match p.array, p.groups with
  | some a, _ => .error ⟨.unterminatedGroup Symbol.closeParen.char, a.line⟩
  | none, group :: _ => .error (unterminated group group.line)
  | none, [] => .ok p.endSentence.sentences.reverse

end Parser

def parseLexemes (s : Store) (lexemes : List Lexeme) : Except ParseError (List Sentence) × Store :=
  match (Parser.start s).feed lexemes with
  | (p, some e) => (.error e, p.store)
  | (p, none) => (p.finish, p.store)

/-- Parses a source text into a store. The whole text is scanned first: an error of scanning wins
over every error of parsing, and makes no value. -/
def parse (s : Store) (source : String) : Except ParseError (List Sentence) × Store :=
  match scan source with
  | .error e => (.error e, s)
  | .ok lexemes => parseLexemes s lexemes

end Source

end Tacit
