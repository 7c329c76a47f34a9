import Tacit.Directory
import Tacit.Repl

/-!
The command line: which arguments are understood, what they ask for, and what is written to the
output and the error output in answer.
-/

namespace Tacit.CommandLine

structure Options where
  /-- The script is the name of a file that holds it. -/
  file : Bool
  repl : Bool
  /-- The script is read from the input. -/
  pipe : Bool
  script : Option String
deriving DecidableEq, Repr

namespace Options

def initial : Options := ⟨false, false, false, none⟩

end Options

/-- The options with a name. -/
inductive Flag where
  | file
  | repl
  | pipe
  | version
  | help
deriving DecidableEq, Repr

namespace Flag

def ofShort? : Char → Option Flag
  | 'f' => some .file
  | 'r' => some .repl
  | 'p' => some .pipe
  | 'V' => some .version
  | 'h' => some .help
  | _ => none

def ofLong? : String → Option Flag
  | "file" => some .file
  | "repl" => some .repl
  | "pipe-mode" => some .pipe
  | "version" => some .version
  | "help" => some .help
  | _ => none

end Flag

/-- Why the arguments ask for no run of the program. -/
inductive Interrupt where
  | version
  | help
  | usage
deriving DecidableEq, Repr

/-- Sets a flag. It may be given once only. -/
def Options.set (o : Options) : Flag → Except Interrupt Options
  | .file => if o.file then .error .usage else .ok { o with file := true }
  | .repl => if o.repl then .error .usage else .ok { o with repl := true }
  | .pipe => if o.pipe then .error .usage else .ok { o with pipe := true }
  | .version => .error .version
  | .help => .error .help

/-- Sets the flags of a cluster of single letters. -/
def Options.setShort (o : Options) : List Char → Except Interrupt Options
  | [] => .ok o
  | c :: cs =>
    match Flag.ofShort? c with
    | some flag => do (← o.set flag).setShort cs
    | none => .error .usage

/-- Takes an argument that is no option. There may be one only. -/
def Options.setScript (o : Options) (text : String) : Except Interrupt Options :=
  match o.script with
  | none => .ok { o with script := some text }
  | some _ => .error .usage

/-- Reads arguments from left to right. The first one that is wrong, or asks for information
about the program, decides. After two dashes alone no argument is an option; a dash alone is
none either. -/
def Options.parse (o : Options) : List String → Except Interrupt Options
  | [] => .ok o
  | arg :: rest =>
    match arg.toList with
    | ['-', '-'] => rest.foldlM Options.setScript o
    | '-' :: '-' :: name =>
      match Flag.ofLong? (String.ofList name) with
      | some flag => do (← o.set flag).parse rest
      | none => .error .usage
    | ['-'] => do (← o.setScript arg).parse rest
    | '-' :: letters => do (← o.setShort letters).parse rest
    | _ => do (← o.setScript arg).parse rest

inductive Origin where
  | input
  | file (name : String)
  | argument (text : String)
deriving DecidableEq, Repr

/-- The origin of the script, or none for a dialogue, which is also what no script at all asks
for. -/
def Options.origin? (o : Options) : Option Origin :=
  if o.repl then none
  else if o.pipe then some .input
  else o.script.map fun text => if o.file then .file text else .argument text

structure Outcome where
  code : Nat
  out : String
  err : String
deriving DecidableEq, Repr

namespace Outcome

def success (out : String) : Outcome := ⟨0, out, ""⟩

def failure (err : String) : Outcome := ⟨1, "", err ++ "\n"⟩

end Outcome

def versionText : String := "anka 0.2.0"

def bannerText : String := versionText ++ " (.exit to quit)\n"

def usageText : String := "Usage: anka [OPTIONS] [CONTENTS]\n"

def helpText : String :=
  "anka is a point-free, array-oriented scripting language evaluated from right to left\n\n" ++
  usageText ++
  "\nArguments:\n" ++
  "  [CONTENTS]\n" ++
  "\nOptions:\n" ++
  "  -f, --file       Tells anka to look at a file instead of a script\n" ++
  "  -r, --repl       Starts an interactive session. " ++
  "This is the default when no script is given\n" ++
  "  -p, --pipe-mode  Pipe mode reads the script from standard input\n" ++
  "  -h, --help       Print help\n" ++
  "  -V, --version    Print version\n"

def Interrupt.outcome : Interrupt → Outcome
  | .version => .success (versionText ++ "\n")
  | .help => .success helpText
  | .usage => ⟨2, "", usageText⟩

/-- The script, given what was read from its origin, if anything could be read. The error tells
where reading failed. -/
def Origin.script : Origin → Option ByteArray → Except String String
  | .argument text, _ => .ok text
  | .input, bytes =>
    match bytes.bind String.fromUTF8? with
    | some text => .ok text
    | none => .error "Failed to read the script from standard input."
  | .file name, bytes =>
    match bytes.bind String.fromUTF8? with
    | some text => .ok text
    | none =>
      .error ("Failed to read the input file '" ++ name ++ "'. Perhaps this file does not exist?")

def runScript (depth : Nat) (script : String) : Outcome :=
  match (Session.initial.run depth script).1 with
  | .ok (some text) => .success (text ++ "\n")
  | .ok none => .success ""
  | .error e => .failure e.message

def runOrigin (depth : Nat) (origin : Origin) (bytes : Option ByteArray) : Outcome :=
  match origin.script bytes with
  | .ok script => runScript depth script
  | .error message => .failure message

/-- Holds a dialogue about all lines of an input. -/
def runDialogue (depth : Nat) (input : ByteArray) : Outcome :=
  let d := Dialogue.run depth .initial (Text.lines input)
  match d.problem with
  | none => ⟨0, bannerText ++ d.out promptText, d.err⟩
  | some message => ⟨1, bannerText ++ d.out promptText, d.err ++ message ++ "\n"⟩

/-- The whole program: the outcome of its arguments and its input in a directory. -/
def run (depth : Nat) (args : List String) (input : ByteArray) (d : Directory) : Outcome :=
  match Options.initial.parse args with
  | .error interrupt => interrupt.outcome
  | .ok options =>
    match options.origin? with
    | none => runDialogue depth input
    | some (.file name) => runOrigin depth (.file name) (d.read? name)
    | some origin => runOrigin depth origin (some input)

end Tacit.CommandLine
