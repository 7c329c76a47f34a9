import Tacit.Double.Fixed
import Tacit.Source.Error
import Tacit.Source.Token

/-!
Scanning: a source text is cut into lexemes from left to right. At each place the longest text
that matches a pattern is taken; blanks and comments are taken too, but give no lexeme.

The scan walks over the characters one by one. `skip` counts those that still belong to the last
match, so the recursion is on the text itself.
-/

namespace Tacit.Source

/-- What a match is a match of. -/
inductive Pattern where
  /-- An optional minus sign, digits, a point and digits. -/
  | double
  /-- An optional minus sign and digits. -/
  | integer
  /-- A letter, then letters, digits and underscores: a name or a keyword. -/
  | word
  /-- An underscore, then digits. -/
  | placeholder
  | symbol (s : Symbol)
  | blank
  /-- From a number sign to the end of the line. -/
  | comment
deriving DecidableEq, Repr

def continuesWord (c : Char) : Bool := c.isAlphanum || c == '_'

def isBlank (c : Char) : Bool := c == ' ' || c == '\t' || c == '\x0c' || c == '\r'

/-- A comment runs up to the next newline or carriage return. -/
def continuesComment (c : Char) : Bool := c != '\n' && c != '\r'

def run (p : Char → Bool) (cs : List Char) : Nat := (cs.takeWhile p).length

/-- The match of a number of which the sign or the first digit, and `k` characters after it, are
read: a point counts only if a digit follows. -/
def numberAfter (k : Nat) (cs : List Char) : Pattern × Nat :=
  match cs.drop k with
  | '.' :: rest =>
    match run Char.isDigit rest with
    | 0 => (.integer, k)
    | places => (.double, k + 1 + places)
  | _ => (.integer, k)

/-- The longest match at the head of `c :: cs`, with the number of its characters after `c`. -/
def longestMatch (c : Char) (cs : List Char) : Option (Pattern × Nat) :=
  if c.isDigit then some (numberAfter (run Char.isDigit cs) cs)
  else if c = '-' then
    match run Char.isDigit cs with
    | 0 => none
    | k => some (numberAfter k cs)
  else if c.isAlpha then some (.word, run continuesWord cs)
  else if c = '_' then some (.placeholder, run Char.isDigit cs)
  else if c = '#' then some (.comment, run continuesComment cs)
  else if isBlank c then some (.blank, run isBlank cs)
  else (Symbol.ofChar? c).map fun s => (.symbol s, 0)

/-- The truth values are the words that are no names. -/
def keyword? : List Char → Option Bool
  | ['t', 'r', 'u', 'e'] => some true
  | ['f', 'a', 'l', 's', 'e'] => some false
  | _ => none

/-- Placeholder numbers below this bound exist. -/
def placeholderBound : Nat := Nat.pow 2 32

/-- The token of a match: none for what only separates tokens, and an error for a number out of
range. -/
def token? (text : List Char) : Pattern → Except ParseError.Cause (Option Token)
  | .double => .ok (some (.literal .double (Double.ofLiteral text)))
  | .integer =>
    match Numeral.int32? text with
    | some n => .ok (some (.literal .int n))
    | none => .error (.literalTooLarge (String.ofList text))
  | .word =>
    match keyword? text with
    | some b => .ok (some (.literal .bool b))
    | none => .ok (some (.name (String.ofList text)))
  | .placeholder =>
    let n := Numeral.value (text.drop 1)
    if n < placeholderBound then .ok (some (.placeholder n))
    else .error (.unexpectedToken (String.ofList text))
  | .symbol s => .ok (some (.symbol s))
  | .blank => .ok none
  | .comment => .ok none

/-- The lexemes of the text after `skip` characters. The place and the line are those of the
first character to be read. -/
def scanFrom (line start : Nat) : (skip : Nat) → List Char → Except ParseError (List Lexeme)
  | _, [] => .ok []
  | skip + 1, _ :: cs => scanFrom line start skip cs
  | 0, c :: cs =>
    match longestMatch c cs with
    | none => .error ⟨.unexpectedToken (String.singleton c), line⟩
    | some (pattern, k) =>
      let text := String.ofList (c :: cs.take k)
      match token? (c :: cs.take k) pattern with
      | .error cause => .error ⟨cause, line⟩
      | .ok found => do
        let line' := if pattern = .symbol .newline then line + 1 else line
        let rest ← scanFrom line' (start + text.utf8ByteSize) k cs
        match found with
        | some token => return ⟨token, text, line, start⟩ :: rest
        | none => return rest

def scan (source : String) : Except ParseError (List Lexeme) := scanFrom 1 0 0 source.toList

end Tacit.Source
