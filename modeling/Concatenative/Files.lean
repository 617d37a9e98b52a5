import Concatenative.Error
set_option autoImplicit false

namespace Concatenative

inductive ReadFailure where
  | missing
  /-- What is there, or on the way, is no file. -/
  | unreadable
  /-- A file is there, but it cannot be opened. -/
  | locked
  deriving DecidableEq, Repr

def ReadFailure.error : ReadFailure → Error
  | .missing => .fileNotFound
  | .unreadable | .locked => .fileUnreadable

/-- What is known of the files at paths; `none` is a path that has not been looked at yet. -/
abbrev Files := String → Option (Except ReadFailure ByteArray)

namespace Path

def isAbsolute (path : String) : Bool := path.toList.head? = some '/'

def join (directory path : String) : String :=
  if directory = "" ∨ directory.toList.getLast? = some '/' then directory ++ path
  else directory ++ "/" ++ path

/-- Where a file is looked for: at its path, and unless that is absolute, in each directory. -/
def candidates (searchPaths : List String) (path : String) : List String :=
  path :: if isAbsolute path then [] else searchPaths.map fun directory => join directory path

end Path

/-- Files and directories below the current directory, under the names that lead there. A
directory has no content. -/
structure FileTree where
  entries : List (List String × Option ByteArray)

namespace FileTree

def longestName : Nat := 255

def longestPath : Nat := 4095

def names (path : String) : List String := path.splitOn "/"

def stays (name : String) : Bool := name = "" || name = "."

def insert (t : FileTree) (path : String) (content : ByteArray) : FileTree :=
  let isDirectory := path.toList.getLast? = some '/'
  ⟨((names path).filter fun n => !stays n, if isDirectory then none else some content) :: t.entries⟩

/-- A place that a path leads to. Of what lies outside the current directory only the
directories above it are known. -/
inductive Place where
  | inside (names : List String)
  | outside
  | nowhere (why : ReadFailure)
  deriving DecidableEq, Repr

def content? (t : FileTree) (names : List String) : Option ByteArray :=
  (t.entries.find? fun e => e.1 = names && e.2.isSome).bind Prod.snd

def isDirectory (t : FileTree) (names : List String) : Bool :=
  names.isEmpty || t.entries.any fun e => names.isPrefixOf e.1 && (e.1 ≠ names || e.2.isNone)

def walk (t : FileTree) (p : Place) (name : String) : Place :=
  match p with
  | .nowhere why => .nowhere why
  | .outside =>
    if stays name || name = ".." then .outside
    else if name.utf8ByteSize > longestName then .nowhere .unreadable
    else .nowhere .missing
  | .inside names =>
    if t.isDirectory names then
      if stays name then .inside names
      else if name = ".." then
        if names.isEmpty then .outside else .inside names.dropLast
      else if name.utf8ByteSize > longestName then .nowhere .unreadable
      else .inside (names ++ [name])
    else if (t.content? names).isSome then .nowhere .unreadable
    else .nowhere .missing

def locate (t : FileTree) (path : String) : Place :=
  if path = "" then .nowhere .missing
  else if path.utf8ByteSize > longestPath then .nowhere .unreadable
  else (names path).foldl t.walk (if Path.isAbsolute path then .outside else .inside [])

def read (t : FileTree) (path : String) : Except ReadFailure ByteArray :=
  match t.locate path with
  | .nowhere why => .error why
  | .outside => .error .unreadable
  | .inside names =>
    match t.content? names with
    | some content => .ok content
    | none => .error (if t.isDirectory names then .unreadable else .missing)

def files (t : FileTree) : Files := fun path => some (t.read path)

end FileTree
end Concatenative
