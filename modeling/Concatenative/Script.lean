import Concatenative.Session
import Concatenative.Statement
import Concatenative.Text.Lines
set_option autoImplicit false

namespace Concatenative.Script

def quitLine : String := ".q"

def isQuit (s : Statement) (line : String) : Bool :=
  !s.isPending && Text.trim line = quitLine

/-- Takes lines one after the other. After each of them `take` says how the statement goes on, or
that no more lines are wanted; `close` deals with the end of the lines. -/
def overLines (take : Statement → Option String → Action (Option Statement))
    (close : Statement → Action Unit) : Statement → List (Option String) → Action Unit
  | s, [] => close s
  | s, line :: rest => do
    match ← take s line with
    | none => pure ()
    | some s' => overLines take close s' rest

/-- One more line of a script; `none` is a line that cannot be decoded. -/
def take (exec : Code → Action Unit) (s : Statement) : Option String → Action (Option Statement)
  | none => Action.fail .fileUnreadable
  | some line =>
    if isQuit s line then pure none
    else
      match s.feed line with
      | (.error e, _) => Action.fail e
      | (.ok .incomplete, s') => pure (some s')
      | (.ok (.complete code), s') => do
        exec code
        pure (some s'.reset)

def close (exec : Code → Action Unit) (s : Statement) : Action Unit := do
  let code ← Action.ofExcept s.flush
  exec code

/-- Runs a script. The first error ends it. -/
def run (exec : Code → Action Unit) (lines : List (Option String)) : Action Unit := do
  let session ← Action.get
  overLines (take exec) (close exec) (.empty session.statementLimit) lines

end Concatenative.Script
