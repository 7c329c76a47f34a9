import Tacit.Session

/-!
The dialogue: the input is read as lines, which are answered one by one against a session. A line
with a dot in front may be a command instead of source text, and white space at its ends does not
count.
-/

namespace Tacit

/-! ### Lines of input -/

namespace Text

/-- The ranges of the characters with the white space property of Unicode, ends included. -/
def whiteRanges : List (Nat × Nat) := [
  (0x09, 0x0d), (0x20, 0x20), (0x85, 0x85), (0xa0, 0xa0), (0x1680, 0x1680), (0x2000, 0x200a),
  (0x2028, 0x2029), (0x202f, 0x202f), (0x205f, 0x205f), (0x3000, 0x3000)]

def isWhite (c : Char) : Bool := whiteRanges.any fun (lo, hi) => lo ≤ c.toNat && c.toNat ≤ hi

def trim (cs : List Char) : List Char :=
  ((cs.dropWhile isWhite).reverse.dropWhile isWhite).reverse

def newline : UInt8 := 10

/-- The lines of a byte sequence, where `current` holds the bytes of the first line before it,
last first. Bytes after the last newline make a line of their own. -/
def splitLines (current : List UInt8) : List UInt8 → List (List UInt8)
  | [] => if current.isEmpty then [] else [current.reverse]
  | b :: bytes =>
    if b = newline then current.reverse :: splitLines [] bytes
    else splitLines (b :: current) bytes

/-- The lines of an input. A line whose bytes encode no text is none. -/
def lines (input : ByteArray) : List (Option String) :=
  (splitLines [] input.toList).map fun line => String.fromUTF8? line.toByteArray

end Text

/-! ### Commands and replies -/

/-- What a line of input asks for. -/
inductive Command where
  /-- Leave the dialogue. -/
  | exit
  /-- Forget the session and the history. -/
  | clear
  /-- Clear the screen only. -/
  | clearScreen
  /-- List builtins and bindings. -/
  | internal
  /-- List the source texts run so far. -/
  | history
  | empty
  | source (text : String)
deriving DecidableEq, Repr

namespace Command

/-- The command that a line is, white space at its ends aside. -/
def ofLine (line : String) : Command :=
  match String.ofList (Text.trim line.toList) with
  | ".exit" => .exit
  | ".clear" => .clear
  | ".cls" => .clearScreen
  | ".internal" => .internal
  | ".history" => .history
  | "" => .empty
  | text => .source text

end Command

structure Reply where
  out : String
  err : String
deriving DecidableEq, Repr

namespace Reply

def silent : Reply := ⟨"", ""⟩

end Reply

/-- Erases the screen and moves the cursor to its top. -/
def clearScreenText : String := "\x1b[2J\x1b[H"

def promptText : String := "anka> "

/-- A dialogue between two lines. -/
structure Repl where
  session : Session
  /-- The source texts run so far, in order. -/
  history : List String

namespace Repl

def initial : Repl := ⟨.initial, []⟩

/-- Runs a source text. It joins the history whether it succeeds or not. -/
def runSource (depth : Nat) (r : Repl) (text : String) : Repl × Reply :=
  let (result, session) := r.session.run depth text
  let reply :=
    match result with
    | .ok (some text) => ⟨text ++ "\n", ""⟩
    | .ok none => .silent
    | .error e => ⟨"", e.message ++ "\n"⟩
  (⟨session, r.history ++ [text]⟩, reply)

/-- Answers a command; there is no answer to the one that ends the dialogue. -/
def answer (depth : Nat) (r : Repl) : Command → Option (Repl × Reply)
  | .exit => none
  | .clear => some (.initial, .silent)
  | .clearScreen => some (r, ⟨clearScreenText, ""⟩)
  | .internal =>
    match r.session.listing with
    | .ok text => some (r, ⟨text, ""⟩)
    | .error f => some (r, ⟨"", f.message ++ "\n"⟩)
  | .history => some (r, ⟨String.join (r.history.map (· ++ "\n")), ""⟩)
  | .empty => some (r, .silent)
  | .source text => some (r.runSource depth text)

end Repl

def unreadableText : String := "stream did not contain valid UTF-8"

inductive Ending where
  | exit
  | endOfInput
  /-- A line could not be read as text. -/
  | unreadable
deriving DecidableEq, Repr

/-- A whole dialogue: the replies in order, and what is left at the end. -/
structure Dialogue where
  replies : List Reply
  final : Repl
  ending : Ending

namespace Dialogue

/-- Answers lines up to the end of the input, a line that ends the dialogue or one that is no
text. -/
def run (depth : Nat) (r : Repl) : List (Option String) → Dialogue
  | [] => ⟨[], r, .endOfInput⟩
  | none :: _ => ⟨[], r, .unreadable⟩
  | some line :: rest =>
    match r.answer depth (.ofLine line) with
    | none => ⟨[], r, .exit⟩
    | some (r', reply) =>
      let later := run depth r' rest
      { later with replies := reply :: later.replies }

/-- What is written to the output. The prompt comes before every line that is read, also before
the one that ends the dialogue and before the end of the input. -/
def out (prompt : String) (d : Dialogue) : String :=
  String.join (d.replies.map fun reply => prompt ++ reply.out) ++ prompt

def err (d : Dialogue) : String := String.join (d.replies.map Reply.err)

def problem (d : Dialogue) : Option String :=
  match d.ending with
  | .unreadable => some unreadableText
  | _ => none

end Dialogue

end Tacit
