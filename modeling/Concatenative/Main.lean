import Concatenative.Shell
set_option autoImplicit false

namespace Concatenative.Program

def depth : Nat := 1000000

abbrev KnownFiles := List (String × Except ReadFailure ByteArray)

def readPath (path : String) : IO (Except ReadFailure ByteArray) := do
  try
    return .ok (← IO.FS.readBinFile path)
  catch
    | .noFileOrDirectory .. => return .error .missing
    | .permissionDenied .. => return .error .locked
    | _ => return .error .unreadable

/-- Runs an action, supplying the files it asks for, until it no longer pauses for one. -/
partial def supply {α : Type} (x : Action α) (s : Session) (known : KnownFiles) :
    IO (Result α) := do
  match x { s with files := fun path => known.lookup path } with
  | .paused (.file path) => supply x s ((path, ← readPath path) :: known)
  | r => return r

def showOutput (s : Session) : IO Session := do
  let out ← IO.getStdout
  out.putStr s.output.written
  out.flush
  return { s with output := .unlimited }

def reportDepth : IO UInt32 := do
  IO.eprintln "calls are nested too deep"
  return 134

partial def readLine (input : IO.FS.Stream) (seen : ByteArray) : IO ByteArray := do
  let byte ← input.read 1
  if byte.isEmpty then return seen
  let seen := seen ++ byte
  if byte = [10].toByteArray then return seen else readLine input seen

partial def converse (quiet : Bool) (statement : Statement) (s : Session) : IO UInt32 := do
  let s ← showOutput s
  match Text.Lines.ofBytes (← readLine (← IO.getStdin) ByteArray.empty) with
  | [] =>
    match ← supply (Shell.close (Action.exec depth) statement) s [] with
    | .value _ s | .failure _ s => let _ ← showOutput s; return 0
    | .paused _ => reportDepth
  | line :: _ =>
    match ← supply (Shell.take quiet (Action.exec depth) statement line) s [] with
    | .value (some statement) s => converse quiet statement s
    | .value none s | .failure _ s => let _ ← showOutput s; return 0
    | .paused _ => reportDepth

def runScript (path : String) (s : Session) : IO UInt32 := do
  match ← supply (Shell.script (Action.exec depth) path) s [] with
  | .value _ s => let _ ← showOutput s; return 0
  | .failure e s =>
    let s ← showOutput s
    IO.eprintln (e.report s.trail)
    return 1
  | .paused _ => reportDepth

def run (settings : Settings) : IO UInt32 := do
  let s := Shell.session settings fun _ => none
  match settings.script with
  | some path => runScript path s
  | none =>
    match Shell.greet settings.quiet s with
    | .value statement s => converse settings.quiet statement s
    | _ => return 0

end Concatenative.Program

open Concatenative in
def main (arguments : List String) : IO UInt32 := do
  match Settings.ofArguments arguments (← IO.getEnv "QUOTIENT_PATH") with
  | .ok settings => Program.run settings
  | .error e =>
    let exit := Shell.usageExit e
    IO.print exit.output
    IO.eprint exit.errors
    return exit.code.toUInt32
