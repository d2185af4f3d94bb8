import Codegen6502.CommandLine.Run

/-!
# Files in memory

A tree of files on which commands can be run without a file system.  A name is followed one
component at a time: `.` is the directory itself, `..` the one above, and slashes in a row count as
one.  The directories of the tree are those on the way to a file or to the working directory.
-/

namespace Codegen6502

/-- Why a file cannot be read or written. -/
inductive FileFault where
  | notFound
  | notDirectory
  | isDirectory
  | nameTooLong
  | notText
  deriving DecidableEq

def FileFault.message : FileFault → String
  | .notFound => "No such file or directory (os error 2)"
  | .notDirectory => "Not a directory (os error 20)"
  | .isDirectory => "Is a directory (os error 21)"
  | .nameTooLong => "File name too long (os error 36)"
  | .notText => "stream did not contain valid UTF-8"

/-- The files of a tree, each with its path from the root. -/
structure FileTree where
  files : List (List String × List UInt8) := []
  deriving DecidableEq

namespace FileTree

/-- Where names begin that do not start with a slash. -/
def workingDirectory : List String := ["tmp", "work"]

def file? (t : FileTree) (path : List String) : Option (List UInt8) := t.files.lookup path

def isDirectory (t : FileTree) (path : List String) : Bool :=
  path.isPrefixOf workingDirectory ||
    t.files.any fun f => path.length < f.1.length && path.isPrefixOf f.1

/-! ### Following names -/

/-- The longest component of a name, in bytes. -/
def maxComponent : Nat := 255

/-- The longest name, in bytes. -/
def maxName : Nat := 4095

/-- The parts of a text between its slashes. -/
def parts (text : List Char) : List (List Char) :=
  text.foldr (fun c parts =>
    match parts with
    | part :: rest => if c = '/' then [] :: part :: rest else (c :: part) :: rest
    | [] => [[c]]) [[]]

/-- The components of a name. -/
def components (name : String) : List String :=
  ((parts name.toList).filter fun part => !part.isEmpty).map String.ofList

/-- The directory that a component leads to. -/
def enter (t : FileTree) (directory : List String) (component : String) :
    Except FileFault (List String) :=
  if component = "." then .ok directory
  else if component = ".." then .ok directory.dropLast
  else if component.utf8ByteSize > maxComponent then .error .nameTooLong
  else
    let path := directory ++ [component]
    if t.isDirectory path then .ok path
    else if (t.file? path).isSome then .error .notDirectory
    else .error .notFound

/-- What a name stands for. -/
inductive Place where
  | directory
  /-- An entry of a directory, there or not; `closed` if a slash follows it. -/
  | entry (directory : List String) (component : String) (closed : Bool)
  deriving DecidableEq

/-- The place that a name leads to. -/
def locate (t : FileTree) (name : String) : Except FileFault Place := do
  if name.utf8ByteSize > maxName then throw .nameTooLong
  let start := if name.toList.head? = some '/' then [] else workingDirectory
  let components := components name
  match components.getLast? with
  | none => return .directory
  | some last =>
    let directory ← components.dropLast.foldlM t.enter start
    if last = "." ∨ last = ".." then return .directory
    else return .entry directory last (name.toList.getLast? = some '/')

/-! ### Reading and writing -/

/-- The text of a file. -/
def read (t : FileTree) (name : String) : Except FileFault String := do
  match ← t.locate name with
  | .directory => throw .isDirectory
  | .entry directory component closed =>
    let path := directory ++ [component]
    if component.utf8ByteSize > maxComponent then throw .nameTooLong
    else if t.isDirectory path then throw .isDirectory
    else match t.file? path with
      | none => throw .notFound
      | some bytes =>
        if closed then throw .notDirectory
        else match String.fromUTF8? ⟨bytes.toArray⟩ with
          | some text => return text
          | none => throw .notText

/-- The tree with a file put in place. -/
def put (t : FileTree) (path : List String) (bytes : List UInt8) : FileTree :=
  ⟨(t.files.filter fun f => f.1 ≠ path) ++ [(path, bytes)]⟩

/-- The tree after a file is written.  A slash behind a name asks for a directory. -/
def write (t : FileTree) (name : String) (bytes : List UInt8) : Except FileFault FileTree := do
  match ← t.locate name with
  | .directory => throw .isDirectory
  | .entry directory component closed =>
    let path := directory ++ [component]
    if closed then throw .isDirectory
    else if component.utf8ByteSize > maxComponent then throw .nameTooLong
    else if t.isDirectory path then throw .isDirectory
    else return t.put path bytes

/-- Access to the files of a tree. -/
def access : FileAccess (StateM FileTree) where
  read name := do return ((← get).read name).mapError FileFault.message
  write name bytes := do
    match (← get).write name bytes with
    | .ok t => set t; return .ok ()
    | .error fault => return .error fault.message

/-! ### The working directory -/

/-- The file that stands for the null device. -/
def nullDevice : List String × List UInt8 := (["dev", "null"], [])

/-- The tree with the given files in the working directory. -/
def ofFiles (files : List (String × List UInt8)) : FileTree :=
  files.foldl (fun t f => t.put (workingDirectory ++ components f.1) f.2) ⟨[nullDevice]⟩

/-- The files in the working directory and below it, named from there. -/
def localFiles (t : FileTree) : List (String × List UInt8) :=
  t.files.filterMap fun f =>
    if workingDirectory.isPrefixOf f.1 then
      some ("/".intercalate (f.1.drop workingDirectory.length), f.2)
    else none

end FileTree

end Codegen6502
