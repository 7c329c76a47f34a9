import Tacit.Source.Parse
import Tacit.Eval.Fold

/-!
Sessions: a store that source texts are run in, one after the other, so that what one binds the
next can use.
-/

namespace Tacit

/-- The store of a new session, in which the constants are bound. -/
def Store.withConstants : Store :=
  Builtin.constants.foldl (fun s (name, x) =>
    let (w, s) := s.create (.datum (.scalar .double x))
    s.bind name w) .empty

/-- Why a source text has no result. -/
inductive SessionError where
  | parse (e : ParseError)
  /-- An error of evaluation, with its report. -/
  | eval (e : EvalError) (report : String)
  | fault (f : Fault)
  | depthExceeded
deriving DecidableEq, Repr

namespace SessionError

def message : SessionError → String
  | .parse e => e.message
  | .eval _ report => report
  | .fault f => f.message
  | .depthExceeded => "Evaluation is nested too deeply."

end SessionError

structure Session where
  store : Store

namespace Session

def initial : Session := ⟨.withConstants⟩

/-- The depth that evaluation is given where nothing else is asked for. -/
def defaultDepth : Nat := 50000

def resultText (s : Store) : Option Word → Except SessionError (Option String)
  | none => .ok none
  | some w =>
    match s.display w with
    | .ok text => .ok (some text)
    | .error f => .error (.fault f)

/-- A failure of evaluation as the session tells it. -/
def failure (s : Store) : Failure → SessionError
  | .error e =>
    match e.report s with
    | .ok report => .eval e report
    | .error f => .fault f
  | .fault f => .fault f
  | .depthExceeded => .depthExceeded

/-- Runs a source text: it is parsed as a whole, then its sentences are executed. What was bound
before an error stays bound. -/
def run (depth : Nat) (session : Session) (source : String) :
    Except SessionError (Option String) × Session :=
  match Source.parse session.store source with
  | (.error e, s) => (.error (.parse e), ⟨s⟩)
  | (.ok sentences, s) =>
    match Eval.execute depth sentences s with
    | .ok result s' => (resultText s' result, ⟨s'⟩)
    | .error e s' => (.error (failure s' e), ⟨s'⟩)

/-- The overloads of all builtins, then the bindings with their values, one in a line. -/
def listing (session : Session) : Except Fault String := do
  let builtins := Builtin.table.map fun o => "  " ++ o.text ++ "\n"
  let bindings := (← session.store.listBindings).map fun (name, text) =>
    "  " ++ name ++ ": " ++ text ++ "\n"
  return "builtins:\n" ++ String.join builtins ++ "bindings:\n" ++ String.join bindings

end Session

end Tacit
