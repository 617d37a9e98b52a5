set_option autoImplicit false

namespace Concatenative

inductive Bracket where
  | square | curly | round
  deriving DecidableEq, Repr

def Bracket.name : Bracket → String
  | .square => "Bracket"
  | .curly => "Brace"
  | .round => "Paren"

inductive Error where
  /-- A bracket was still open at the end of the text. -/
  | unclosed (bracket : Bracket)
  /-- A bracket was closed that was not the innermost open one. -/
  | unopened (bracket : Bracket)
  | malformedEffect
  | statementTooLong
  | unknownWord
  | stackUnderflow
  | wrongType
  | divisionByZero
  | fileNotFound
  | fileUnreadable
  | outputFailed
  | outOfMemory
  | thrown (message : String)
  deriving DecidableEq, Repr

namespace Error

def message : Error → String
  | .unclosed b => "UnmatchedOpen" ++ b.name
  | .unopened b => "UnmatchedClose" ++ b.name
  | .malformedEffect => "MalformedStackEffect"
  | .statementTooLong => "StatementTooLong"
  | .unknownWord => "UnknownWord"
  | .stackUnderflow => "StackUnderflow"
  | .wrongType => "TypeError"
  | .divisionByZero => "DivisionByZero"
  | .fileNotFound => "FileNotFound"
  | .fileUnreadable => "FileReadError"
  | .outputFailed => "OutputError"
  | .outOfMemory => "OutOfMemory"
  | .thrown message => message

/-- Errors that more text can mend. -/
def isIncomplete : Error → Bool
  | .unclosed _ => true
  | _ => false

end Error

structure FailedCall where
  error : Error
  word : String
  line : Nat
  deriving DecidableEq, Repr

def FailedCall.text (c : FailedCall) : String :=
  "at " ++ c.word ++ " (line " ++ toString c.line ++ ")"

/-- The calls a failure passed through, innermost first. -/
abbrev Trail := List FailedCall

def Error.report (e : Error) (trail : Trail) : String :=
  String.join (("Error: " ++ e.message) :: trail.map fun c => "\n  " ++ c.text)

end Concatenative
