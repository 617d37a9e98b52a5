import Concatenative.Text.Decimal
set_option autoImplicit false

/-!
Settings of a session and the command line that gives them. The value of an option that is given
in an argument of its own is looked at when the next option or script is accepted, or at the end;
so an argument that is not known at all is reported first.
-/
namespace Concatenative

structure Settings where
  script : Option String
  searchPaths : List String
  maxStatementBytes : Nat
  quiet : Bool
  deriving DecidableEq, Repr

def Settings.standard : Settings := ⟨none, [], 65536, false⟩

inductive UsageError where
  | unknownArgument
  /-- An option without a value, or an empty path. -/
  | invalidValue
  | malformedNumber
  | repeatedOption
  | unexpectedValue
  | helpRequested
  deriving DecidableEq, Repr

inductive ValueOption where
  | searchPath | maxStatementBytes
  deriving DecidableEq, Repr

/-- What has been read and not yet looked at. -/
inductive PendingArgument where
  | none
  | option (o : ValueOption) (value : Option String)
  | script (path : String)
  deriving DecidableEq, Repr

structure CommandLine where
  script : Option String
  /-- Nothing until a search path is given. -/
  searchPaths : Option (List String)
  maxStatementBytes : Option Nat
  quiet : Bool
  pending : PendingArgument
  /-- Only a script can follow. -/
  optionsEnded : Bool
  deriving DecidableEq, Repr

namespace CommandLine

def start : CommandLine := ⟨none, none, none, false, .none, false⟩

def paths (value : String) : Except UsageError (List String) :=
  let ps := value.splitOn ":"
  if ps.any (· = "") then .error .invalidValue else .ok ps

def setOption (c : CommandLine) (o : ValueOption) (value : String) :
    Except UsageError CommandLine :=
  match o with
  | .searchPath => do
    let ps ← paths value
    .ok { c with searchPaths := some (c.searchPaths.getD [] ++ ps) }
  | .maxStatementBytes =>
    if c.maxStatementBytes.isSome then .error .repeatedOption
    else
      match Text.Decimal.size? value.toList with
      | none => .error .malformedNumber
      | some n => .ok { c with maxStatementBytes := some n }

def settle (c : CommandLine) : Except UsageError CommandLine :=
  let c' := { c with pending := .none }
  match c.pending with
  | .none => .ok c'
  | .option _ none => .error .invalidValue
  | .option o (some value) => c'.setOption o value
  | .script path => if path = "" then .error .invalidValue else .ok { c' with script := some path }

def setQuiet (c : CommandLine) : Except UsageError CommandLine := do
  let c ← c.settle
  if c.quiet then .error .repeatedOption else .ok { c with quiet := true }

def help (c : CommandLine) : Except UsageError CommandLine := do
  let _ ← c.settle
  .error .helpRequested

def takeOption (c : CommandLine) (o : ValueOption) (attached : Option String) :
    Except UsageError CommandLine := do
  let c ← c.settle
  match attached with
  | some value => c.setOption o value
  | none => .ok { c with pending := .option o none }

def takeLong (c : CommandLine) (name : String) (attached : Option String) :
    Except UsageError CommandLine :=
  if name = "include" then c.takeOption .searchPath attached
  else if name = "max-statement-bytes" then c.takeOption .maxStatementBytes attached
  else if name = "quiet" then
    if attached.isSome then .error .unexpectedValue else c.setQuiet
  else if name = "help" then
    if attached.isSome then .error .unexpectedValue else c.help
  else .error .unknownArgument

def takeShort (c : CommandLine) : List Char → Except UsageError CommandLine
  | [] => .ok c
  | 'I' :: [] => c.takeOption .searchPath none
  | 'I' :: '=' :: value => c.takeOption .searchPath (some (String.ofList value))
  | 'I' :: value => c.takeOption .searchPath (some (String.ofList value))
  | 'q' :: rest => do
    let c ← c.setQuiet
    c.takeShort rest
  | 'h' :: _ => c.help
  | _ :: _ => .error .unknownArgument

def takeScript (c : CommandLine) (path : String) : Except UsageError CommandLine :=
  let taken := c.script.isSome || match c.pending with
    | .script _ => true
    | _ => false
  if taken then .error .unknownArgument
  else do
    let c ← c.settle
    .ok { c with pending := .script path }

def take (c : CommandLine) (argument : String) : Except UsageError CommandLine :=
  if c.optionsEnded then c.takeScript argument
  else
    match argument.toList with
    | ['-', '-'] => .ok { c with optionsEnded := true }
    | '-' :: '-' :: option =>
      let name := option.takeWhile (· ≠ '=')
      let attached := match option.dropWhile (· ≠ '=') with
        | '=' :: value => some (String.ofList value)
        | _ => none
      c.takeLong (String.ofList name) attached
    | '-' :: c' :: letters => c.takeShort (c' :: letters)
    | _ =>
      match c.pending with
      | .option o none => .ok { c with pending := .option o (some argument) }
      | _ => c.takeScript argument

end CommandLine

/-- The settings that arguments give; the search paths of the environment count only if none is
given. -/
def Settings.ofArguments (arguments : List String) (environmentPaths : Option String) :
    Except UsageError Settings := do
  let c ← arguments.foldlM CommandLine.take CommandLine.start
  let c ← c.settle
  let searchPaths ← match c.searchPaths, environmentPaths with
    | some ps, _ => .ok ps
    | none, some value => CommandLine.paths value
    | none, none => .ok []
  .ok {
    script := c.script
    searchPaths
    maxStatementBytes := c.maxStatementBytes.getD Settings.standard.maxStatementBytes
    quiet := c.quiet }

end Concatenative
