import Concatenative.Dictionary
import Concatenative.Files
import Concatenative.Output
import Concatenative.Settings
set_option autoImplicit false

/-!
A session and the actions on it. An action yields a value or fails, and in both cases says what
the session is then. It may also pause: the run then has no result, and can be started again once
what it waits for is there.
-/
namespace Concatenative

structure Session where
  /-- The directories in which files are looked for. -/
  searchPaths : List String
  /-- The most bytes a statement may have. -/
  statementLimit : Nat
  files : Files
  /-- The data stack, top first. -/
  stack : List Value
  dictionary : Dictionary
  trail : Trail
  output : Sink

def Session.start (settings : Settings) (files : Files) (dictionary : Dictionary)
    (output : Sink) : Session :=
  { searchPaths := settings.searchPaths
    statementLimit := settings.maxStatementBytes
    files
    stack := []
    dictionary
    trail := []
    output }

inductive Pause where
  /-- Calls were nested deeper than allowed. -/
  | depth
  /-- A file that has not been looked at. -/
  | file (path : String)
  deriving DecidableEq, Repr

inductive Result (α : Type) where
  | value (a : α) (s : Session)
  | failure (e : Error) (s : Session)
  | paused (why : Pause)

def Action (α : Type) : Type := Session → Result α

namespace Action

variable {α β : Type}

@[inline] protected def pure (a : α) : Action α := fun s => .value a s

@[inline] protected def bind (x : Action α) (f : α → Action β) : Action β := fun s =>
  match x s with
  | .value a s' => f a s'
  | .failure e s' => .failure e s'
  | .paused why => .paused why

@[always_inline] instance : Monad Action where
  pure := Action.pure
  bind := Action.bind

theorem bind_apply (x : Action α) (f : α → Action β) (s : Session) :
    (x >>= f) s = match x s with
      | .value a s' => f a s'
      | .failure e s' => .failure e s'
      | .paused why => .paused why := rfl

@[inline] def fail (e : Error) : Action α := fun s => .failure e s

@[inline] def pause (why : Pause) : Action α := fun _ => .paused why

@[inline] def get : Action Session := fun s => .value s s

@[inline] def modify (f : Session → Session) : Action Unit := fun s => .value () (f s)

@[inline] def rescue (x : Action α) (handler : Error → Action α) : Action α := fun s =>
  match x s with
  | .failure e s' => handler e s'
  | r => r

def ofExcept (r : Except Error α) : Action α :=
  match r with
  | .ok a => pure a
  | .error e => fail e

def push (v : Value) : Action Unit := modify fun s => { s with stack := v :: s.stack }

def pop : Action Value := fun s =>
  match s.stack with
  | [] => .failure .stackUnderflow s
  | v :: rest => .value v { s with stack := rest }

def peek : Action Value := fun s =>
  match s.stack with
  | [] => .failure .stackUnderflow s
  | v :: _ => .value v s

/-- Takes the top value as what `read` makes of it. A value of another kind is gone, too. -/
def popAs (read : Value → Option α) : Action α := do
  match read (← pop) with
  | some a => pure a
  | none => fail .wrongType

def popInteger : Action Int64 := popAs Value.integer?

def popCondition : Action Bool := popAs Value.condition?

def popString : Action String := popAs Value.string?

def popSymbol : Action String := popAs Value.symbol?

def popQuotation : Action Code := popAs Value.quotation?

def clearStack : Action Unit := modify fun s => { s with stack := [] }

/-- Keeps the first entries of the trail only. -/
def truncateTrail (length : Nat) : Action Unit :=
  modify fun s => { s with trail := s.trail.take length }

def clearTrail : Action Unit := truncateTrail 0

/-- A failure of `x` is a failed call of `word` on `line`. -/
@[inline] def traced (x : Action α) (word : String) (line : Nat) : Action α := fun s =>
  match x s with
  | .failure e s' => .failure e { s' with trail := s'.trail ++ [⟨e, word, line⟩] }
  | r => r

def define (w : Word) : Action Unit :=
  modify fun s => { s with dictionary := s.dictionary.define w }

def lookup (name : String) : Action Word := fun s =>
  match s.dictionary.get? name with
  | some w => .value w s
  | none => .failure .unknownWord s

def print (text : String) : Action Unit := fun s =>
  let (output, success) := s.output.hand text
  let s' := { s with output }
  if success then .value () s' else .failure .outputFailed s'

/-- The first of some paths at which there is a file, and what there is to read. A file that cannot
be opened is found like any other. -/
def firstFile : List String → Action (String × Except ReadFailure ByteArray)
  | [] => fail .fileNotFound
  | path :: paths => fun s =>
    match s.files path with
    | none => .paused (.file path)
    | some (.ok content) => .value (path, .ok content) s
    | some (.error .locked) => .value (path, .error .locked) s
    | some (.error _) => firstFile paths s

def findFile (path : String) : Action (String × Except ReadFailure ByteArray) := do
  let s ← get
  firstFile (Path.candidates s.searchPaths path)

def openFile (found : Except ReadFailure ByteArray) : Action ByteArray :=
  ofExcept (found.mapError ReadFailure.error)

def readFile (path : String) : Action ByteArray := fun s =>
  match s.files path with
  | none => .paused (.file path)
  | some found => openFile found s

end Action

def Session.stackText (s : Session) : String :=
  " ".intercalate ("[" :: Value.piecesList s.stack.reverse ++ ["]"])

end Concatenative
