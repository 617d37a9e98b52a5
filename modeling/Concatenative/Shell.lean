import Concatenative.Evaluation
set_option autoImplicit false

namespace Concatenative.Shell

open Concatenative.Action

def banner : String := "quotient 0.1.0, type .q to quit.\n"

/-- Text of the shell itself, beside what the session prints. -/
def say (text : String) : Action Unit :=
  modify fun s => { s with output := { s.output with written := s.output.written ++ text } }

def report (e : Error) : Action Unit := do
  let s ← get
  say (e.report s.trail ++ "\n")
  clearTrail

def prompt (quiet : Bool) (s : Statement) : Action Unit :=
  if quiet then pure () else say (if s.isPending then "... " else "> ")

def greet (quiet : Bool) : Action Statement := do
  let session ← get
  let s := Statement.empty session.statementLimit
  if quiet then pure () else say banner
  prompt quiet s
  pure s

def answer (exec : Code → Action Unit) (s : Statement) (line : String) : Action Statement :=
  match s.feed line with
  | (.ok .incomplete, s') => pure s'
  | (.ok (.complete code), s') => do
    (exec code).rescue report
    pure s'.reset
  | (.error e, s') => do
    report e
    pure s'.reset

def close (exec : Code → Action Unit) (s : Statement) : Action Unit :=
  (Script.close exec s).rescue report

/-- One more line of a conversation. A line that cannot be decoded, `none`, ends it. -/
def take (quiet : Bool) (exec : Code → Action Unit) (s : Statement) :
    Option String → Action (Option Statement)
  | none => do
    report .fileUnreadable
    close exec s
    pure none
  | some line =>
    if Script.isQuit s line then pure none
    else do
      let s' ← answer exec s line
      prompt quiet s'
      pure (some s')

def converse (quiet : Bool) (exec : Code → Action Unit) (lines : List (Option String)) :
    Action Unit := do
  let s ← greet quiet
  Script.overLines (take quiet exec) (close exec) s lines

def script (exec : Code → Action Unit) (path : String) : Action Unit := do
  let content ← readFile path
  Script.run exec (Text.Lines.ofBytes content)

structure Exit where
  code : Nat
  output : String
  errors : String
  deriving DecidableEq, Repr

/-- The exit of a script: an error is reported apart from the output. -/
def scriptExit : Result Unit → Except Pause Exit
  | .value _ s => .ok ⟨0, s.output.written, ""⟩
  | .failure e s => .ok ⟨1, s.output.written, e.report s.trail ++ "\n"⟩
  | .paused why => .error why

def conversationExit : Result Unit → Except Pause Exit
  | .value _ s => .ok ⟨0, s.output.written, ""⟩
  | .failure _ s => .ok ⟨0, s.output.written, ""⟩
  | .paused why => .error why

def session (settings : Settings) (files : Files) : Session :=
  .start settings files .primitives .unlimited

def run (depth : Nat) (settings : Settings) (files : Files) (input : ByteArray) :
    Except Pause Exit :=
  match settings.script with
  | some path => scriptExit (script (exec depth) path (session settings files))
  | none =>
    conversationExit
      (converse settings.quiet (exec depth) (Text.Lines.ofBytes input) (session settings files))

def usage : String :=
  "Usage: quotient [-I PATHS] [--max-statement-bytes N] [-q] [SCRIPT]\n"

def usageExit : UsageError → Exit
  | .helpRequested => ⟨0, usage, ""⟩
  | _ => ⟨2, "", usage⟩

def runProgram (depth : Nat) (arguments : List String) (environmentPaths : Option String)
    (files : Files) (input : ByteArray) : Except Pause Exit :=
  match Settings.ofArguments arguments environmentPaths with
  | .error e => .ok (usageExit e)
  | .ok settings => run depth settings files input

end Concatenative.Shell
