/-!
# Files

A snapshot of a working directory and the rules by which a path names something in it. Paths are
followed component by component: an empty component or a dot stays, two dots go up, and anything
else must be an entry of a directory. Above the snapshot nothing is known but that directories
exist there.
-/

namespace TensorLowering

/-- Why a file cannot be read. -/
inductive FileError where
  | notFound
  | notDirectory
  | isDirectory
  | nameTooLong
  | nulInPath
  | notUtf8
  /-- Any other report of the system. -/
  | system (message : String)
deriving DecidableEq

/-- The wording of a file error. -/
def FileError.message : FileError → String
  | notFound => "No such file or directory (os error 2)"
  | notDirectory => "Not a directory (os error 20)"
  | isDirectory => "Is a directory (os error 21)"
  | nameTooLong => "File name too long (os error 36)"
  | nulInPath => "file name contained an unexpected NUL byte"
  | notUtf8 => "stream did not contain valid UTF-8"
  | system message => message

/-- A way to read the bytes of the file at a path. -/
abbrev FileReader := String → Except FileError ByteArray

namespace FileReader

/-- Something stands at the path, be it a file or a directory. -/
def exist (read : FileReader) (path : String) : Bool :=
  match read path with
  | .ok _ => true
  | .error error => error == .isDirectory

/-- The text of the file at a path. -/
def readText (read : FileReader) (path : String) : Except FileError String :=
  match read path with
  | .error error => .error error
  | .ok bytes =>
    match String.fromUTF8? bytes with
    | some text => .ok text
    | none => .error .notUtf8

end FileReader

/-- Something in a directory. -/
inductive FileNode where
  | file (bytes : ByteArray)
  | directory

/-- The entries below a working directory, by the names that lead to them. The directories on the
way to an entry have entries of their own. -/
structure Snapshot where
  entries : List (List String × FileNode) := []

namespace Snapshot

/-- The places that the components of a path lead through, each as the names that lead to it. -/
def visited (here : List String) : List String → List (List String)
  | [] => []
  | component :: rest =>
    let next :=
      if component = "" || component = "." then here
      else if component = ".." then here.dropLast
      else here ++ [component]
    next :: visited next rest

/-- Puts something at a path, with all the directories on the way. -/
def insert (snapshot : Snapshot) (path : String) (node : FileNode) : Snapshot :=
  let places := visited [] (path.splitOn "/")
  let directories := places.dropLast.map fun place => (place, FileNode.directory)
  ⟨(places.getLast?.getD [], node) :: directories ++ snapshot.entries⟩

/-- What stands at the end of the given names. -/
def node? (snapshot : Snapshot) (path : List String) : Option FileNode :=
  snapshot.entries.lookup path

/-- A place that a path has led to. -/
inductive Place where
  /-- A directory of the snapshot. -/
  | inside (path : List String)
  /-- A directory above the snapshot. -/
  | outside
  | file (bytes : ByteArray)

/-- The most bytes that a name in a directory can have. -/
def maxNameBytes : Nat := 255

/-- Follows the components of a path. -/
def walk (snapshot : Snapshot) : Place → List String → Except FileError Place
  | place, [] => .ok place
  | .file _, _ :: _ => .error .notDirectory
  | .outside, component :: rest =>
    if component = "" || component = "." || component = ".." then
      walk snapshot .outside rest
    else if component.utf8ByteSize > maxNameBytes then
      .error .nameTooLong
    else
      .error .notFound
  | .inside path, component :: rest =>
    if component = "" || component = "." then
      walk snapshot (.inside path) rest
    else if component = ".." then
      walk snapshot (if path.isEmpty then .outside else .inside path.dropLast) rest
    else if component.utf8ByteSize > maxNameBytes then
      .error .nameTooLong
    else
      match snapshot.node? (path ++ [component]) with
      | none => .error .notFound
      | some .directory => walk snapshot (.inside (path ++ [component])) rest
      | some (.file bytes) => walk snapshot (.file bytes) rest

/-- The directory that a path starts from. -/
def start (path : String) : Place :=
  if path.toList.head? == some '/' then .outside else .inside []

/-- The most bytes that a path can have. -/
def maxPathBytes : Nat := 4095

/-- Reads the file at a path. -/
def read (snapshot : Snapshot) : FileReader := fun path =>
  if path.toList.contains '\x00' then .error .nulInPath
  else if path.isEmpty then .error .notFound
  else if path.utf8ByteSize > maxPathBytes then .error .nameTooLong
  else
    match snapshot.walk (start path) (path.splitOn "/") with
    | .error error => .error error
    | .ok (.file bytes) => .ok bytes
    | .ok _ => .error .isDirectory

end Snapshot

end TensorLowering
