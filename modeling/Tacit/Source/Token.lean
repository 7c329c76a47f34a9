import Tacit.Word

/-!
Tokens, and lexemes: tokens with the text they were read from and its place in the source.
-/

namespace Tacit

/-- The symbols that group words, mark assignments and end lines. -/
inductive Symbol where
  | openParen | closeParen
  | openBracket | closeBracket
  | openBrace | closeBrace
  | bar | colon | newline
deriving DecidableEq, Repr

namespace Symbol

def char : Symbol → Char
  | .openParen => '('
  | .closeParen => ')'
  | .openBracket => '['
  | .closeBracket => ']'
  | .openBrace => '{'
  | .closeBrace => '}'
  | .bar => '|'
  | .colon => ':'
  | .newline => '\n'

def ofChar? : Char → Option Symbol
  | '(' => some .openParen
  | ')' => some .closeParen
  | '[' => some .openBracket
  | ']' => some .closeBracket
  | '{' => some .openBrace
  | '}' => some .closeBrace
  | '|' => some .bar
  | ':' => some .colon
  | '\n' => some .newline
  | _ => none

/-- How messages write a symbol: the end of a line by its name, the others as they are. -/
def text : Symbol → String
  | .newline => "newline"
  | s => String.singleton s.char

end Symbol

inductive Token where
  /-- A scalar of any element type. -/
  | literal (e : Elem) (x : e.Carrier)
  | name (text : String)
  | placeholder (number : Nat)
  | symbol (s : Symbol)
deriving DecidableEq

namespace Token

def text : Token → String
  | .literal e x => String.ofList (e.text x)
  | .name text => text
  | .placeholder n => String.ofList (placeholderText n)
  | .symbol s => s.text

end Token

structure Lexeme where
  token : Token
  /-- The characters the token was read from. -/
  text : String
  /-- The line of the first character, counted from one. -/
  line : Nat
  /-- The place of the first character, in bytes from the beginning of the source. -/
  start : Nat

namespace Lexeme

def stop (l : Lexeme) : Nat := l.start + l.text.utf8ByteSize

end Lexeme

end Tacit
