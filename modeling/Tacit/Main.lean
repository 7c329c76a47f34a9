import Tacit.CommandLine

/-!
The program itself: it reads the input and the files that the command line asks for and writes
what the library answers. A dialogue is answered line by line as the input comes in.
-/

namespace Tacit.CommandLine

/-- All bytes of a stream that are still to come, after those read already. -/
private partial def readAll (stream : IO.FS.Stream) (bytes : ByteArray) : IO ByteArray := do
  let more ← stream.read 65536
  if more.isEmpty then return bytes
  readAll stream (bytes ++ more)

/-- The bytes of a script's origin, if it can be read. -/
private def readOrigin : Origin → IO (Option ByteArray)
  | .argument _ => return none
  | .input => do
    try return some (← readAll (← IO.getStdin) .empty)
    catch _ => return none
  | .file name => do
    try return some (← IO.FS.readBinFile name)
    catch _ => return none

private def write (outcome : Outcome) : IO UInt32 := do
  (← IO.getStdout).putStr outcome.out
  (← IO.getStderr).putStr outcome.err
  return UInt32.ofNat outcome.code

/-- Answers the lines of the input one by one. -/
private partial def converse (depth : Nat) (r : Repl) : IO UInt32 := do
  let out ← IO.getStdout
  out.putStr promptText
  out.flush
  let line? ← try pure (some (← (← IO.getStdin).getLine)) catch _ => pure none
  match line? with
  | none => write (.failure unreadableText)
  | some "" => return 0
  | some line =>
    match r.answer depth (.ofLine line) with
    | none => return 0
    | some (r', reply) =>
      out.putStr reply.out
      (← IO.getStderr).putStr reply.err
      converse depth r'

end Tacit.CommandLine

open Tacit Tacit.CommandLine in
def main (args : List String) : IO UInt32 := do
  let depth := Session.defaultDepth
  match Options.initial.parse args with
  | .error interrupt => write interrupt.outcome
  | .ok options =>
    match options.origin? with
    | none => do
      (← IO.getStdout).putStr bannerText
      converse depth .initial
    | some origin => write (runOrigin depth origin (← readOrigin origin))
