import MipsAsm.Command.System

/-!
# A file tree

`FileTree` is a small file tree that can stand in for the one of the system: the working directory
with its files and folders, and the standard streams.

Of what lies outside of the working directory little is known.  The root holds the usual folders and
some devices, and the folders above the working directory hold nothing else that could be read.
What is written there is not kept.
-/

set_option autoImplicit false

namespace MipsAsm
namespace Command

/-- The most bytes that a part of a path may have. -/
def maxNameSize : Nat := 255

/-- The most bytes that a path may have. -/
def maxPathSize : Nat := 4095

/-! ## Places and what stands there

A path is followed part by part, so that dots lead back from where the path has come to.  The place
it ends at need not have anything standing there, as a file may be about to be made. -/

/-- A device.  Nothing can be read from one. -/
inductive Device where
  /-- Takes everything. -/
  | null
  /-- Takes nothing. -/
  | full
  /-- Passes everything on to the standard output. -/
  | output
  /-- Passes everything on to the error output. -/
  | errors
  /-- A terminal, which is not there. -/
  | terminal
deriving DecidableEq, Repr, Inhabited

/-- What stands at a path. -/
inductive Node where
  /-- A file with its content. -/
  | file (content : String)
  /-- A folder. -/
  | folder
  /-- A device. -/
  | device (d : Device)
deriving DecidableEq, Repr, Inhabited

/-- A working directory and the standard streams. -/
structure FileTree where
  /-- The files and folders in the working directory, each under the names that lead to it. -/
  nodes : List (List String × Node)
  /-- What was written to the standard output. -/
  output : String := ""
  /-- What was written to the error output. -/
  errors : String := ""
deriving DecidableEq, Repr, Inhabited

/-- A place that a path leads to. -/
inductive Place where
  /-- A place in the working directory, under the names that lead to it. -/
  | inside (names : List String)
  /-- A place outside of it, under the names that lead to it from the root. -/
  | system (names : List String)
  /-- A folder above the working directory. -/
  | above
deriving DecidableEq, Repr, Inhabited

namespace FileTree

/-- The folders that the root holds on every system. -/
def rootFolders : List String :=
  ["bin", "dev", "etc", "home", "lib", "media", "mnt", "opt", "proc", "root", "run", "sbin", "srv",
    "sys", "tmp", "usr", "var"]

/-- The device at a place outside of the working directory.  The standard streams have several names
and numbers.  There is nothing to read from the standard input, so it is like the null device. -/
def device? : List String → Option Device
  | ["dev", "null"] | ["dev", "zero"] | ["dev", "random"] | ["dev", "urandom"] => some .null
  | ["dev", "full"] => some .full
  | ["dev", "tty"] => some .terminal
  | ["dev", "stdin"] | ["dev", "fd", "0"] | ["proc", "self", "fd", "0"] => some .null
  | ["dev", "stdout"] | ["dev", "fd", "1"] | ["proc", "self", "fd", "1"] => some .output
  | ["dev", "stderr"] | ["dev", "fd", "2"] | ["proc", "self", "fd", "2"] => some .errors
  | _ => none

/-- Whether a place outside of the working directory is a folder on every system. -/
def isSystemFolder : List String → Bool
  | [] => true
  | [name] => rootFolders.contains name
  | ["dev", "fd"] | ["dev", "pts"] | ["dev", "shm"] | ["proc", "self"] => true
  | ["proc", "self", "fd"] => true
  | _ => false

/-- What stands at a place outside of the working directory. -/
def systemNode? (names : List String) : Option Node :=
  if isSystemFolder names then some .folder else (device? names).map .device

/-- Why no file can be made at a place outside of the working directory.  Some folders show the
state of the system and hold no other files. -/
def systemProblem? : List String → Option FileProblem
  | "proc" :: _ | "dev" :: "fd" :: _ => some .notFound
  | "sys" :: _ => some .forbidden
  | _ => none

/-- What stands at a place. -/
def node? (t : FileTree) : Place → Option Node
  | .above | .inside [] => some .folder
  | .inside names => (t.nodes.find? (·.1 == names)).map Prod.snd
  | .system names => systemNode? names

/-- The folder that holds a place. -/
def parent : Place → Place
  | .above | .inside [] => .above
  | .inside names => .inside names.dropLast
  | .system names => .system names.dropLast

/-- The place with a name in a folder, unless nothing is known of it. -/
def child? (folder : Place) (name : String) : Option Place :=
  match folder with
  | .inside names => some (.inside (names ++ [name]))
  | .system names => some (.system (names ++ [name]))
  | .above => none

/-- Follow the parts of a path from a place.  The length of a part counts once it is looked up in a
folder. -/
def follow (t : FileTree) (place : Place) : List String → Except FileProblem Place
  | [] => .ok place
  | part :: rest =>
    match t.node? place with
    | none => .error .notFound
    | some (.file _) | some (.device _) => .error .notFolder
    | some .folder =>
      if part = "" ∨ part = "." then t.follow place rest
      else if part = ".." then t.follow (parent place) rest
      else if maxNameSize < part.utf8ByteSize then .error .nameTooLong
      else
        match child? place part with
        | none => .error .notFound
        | some place =>
          match t.node? place with
          | none => .error .notFound
          | some _ => t.follow place rest

/-- Where the parts of a path start from. -/
def origin (path : String) : Place :=
  if path.toList.head? = some '/' then .system [] else .inside []

/-- The content of the file with a path. -/
def read (t : FileTree) (path : String) : Except FileProblem String :=
  if path = "" then
    .error .notFound
  else if maxPathSize < path.utf8ByteSize then
    .error .nameTooLong
  else
    match t.follow (origin path) (pathParts path) with
    | .error p => .error p
    | .ok place =>
      match t.node? place with
      | none => .error .notFound
      | some .folder => .error .isFolder
      | some (.device .terminal) => .error .noDevice
      | some (.device _) => .ok ""
      | some (.file content) => .ok content

/-- Put a file at a place in the working directory. -/
def put (t : FileTree) (names : List String) (content : String) : FileTree :=
  { t with nodes := t.nodes.filter (·.1 != names) ++ [(names, .file content)] }

/-- Write to the standard output. -/
def print (t : FileTree) (s : String) : FileTree := { t with output := t.output ++ s }

/-- Write to the error output. -/
def printError (t : FileTree) (s : String) : FileTree := { t with errors := t.errors ++ s }

/-- Write pieces of text to a device.  One that takes nothing refuses the first piece, also if that
is empty. -/
def feed (t : FileTree) (d : Device) (pieces : List String) :
    FileTree × Except FileProblem Unit :=
  match d with
  | .null => (t, .ok ())
  | .full => (t, if pieces.isEmpty then .ok () else .error .noSpace)
  | .output => (t.print (String.join pieces), .ok ())
  | .errors => (t.printError (String.join pieces), .ok ())
  | .terminal => (t, .error .noDevice)

/-- Write pieces of text to a place, unless it is a folder.  Outside of the working directory a new
file is not kept. -/
def fill (t : FileTree) (place : Place) (pieces : List String) :
    FileTree × Except FileProblem Unit :=
  match t.node? place, place with
  | some .folder, _ => (t, .error .isFolder)
  | some (.device d), _ => t.feed d pieces
  | _, .inside names => (t.put names (String.join pieces), .ok ())
  | _, .system names => (t, ((systemProblem? names).map Except.error).getD (.ok ()))
  | _, .above => (t, .ok ())

/-- Write pieces of text in place of the content of the file with a path, or make the file.  A path
that ends in a slash or in dots names a folder. -/
def write (t : FileTree) (path : String) (pieces : List String) :
    FileTree × Except FileProblem Unit :=
  if path = "" then
    (t, .error .notFound)
  else if maxPathSize < path.utf8ByteSize then
    (t, .error .nameTooLong)
  else
    let parts := pathParts path
    let names := (parts.reverse.dropWhile (· == "")).reverse
    match t.follow (origin path) names.dropLast, names.getLast? with
    | .error p, _ => (t, .error p)
    | .ok _, none => (t, .error .isFolder)
    | .ok folder, some name =>
      match t.node? folder with
      | none => (t, .error .notFound)
      | some (.file _) | some (.device _) => (t, .error .notFolder)
      | some .folder =>
        if names.length ≠ parts.length ∨ name = "." ∨ name = ".." then (t, .error .isFolder)
        else if maxNameSize < name.utf8ByteSize then (t, .error .nameTooLong)
        else
          match child? folder name with
          | none => (t, .ok ())
          | some place => t.fill place pieces

/-- The folders that lead to a place in the working directory. -/
def foldersTo (names : List String) : List (List String) :=
  (List.range names.length).tail.map names.take

/-- Put a folder at a place in the working directory, unless something stands there. -/
def putFolder (t : FileTree) (names : List String) : FileTree :=
  if (t.node? (.inside names)).isSome then t
  else { t with nodes := t.nodes ++ [(names, .folder)] }

/-- The working directory with the given folders and files, under their paths in it. -/
def ofList (folders : List String) (files : List (String × String)) : FileTree :=
  let namesOf (path : String) : List String :=
    (pathParts path).filter fun part ↦ part != "" && part != "."
  let withFolders (t : FileTree) (names : List String) : FileTree :=
    (foldersTo names).foldl putFolder t
  let t := folders.foldl (fun t path ↦
    let names := namesOf path
    (withFolders t names).putFolder names) { nodes := [] }
  files.foldl (fun t (path, content) ↦
    let names := namesOf path
    (withFolders t names).put names content) t

/-- The files at the top of the working directory that are new or changed since `before`. -/
def changes (before t : FileTree) : List (String × String) :=
  t.nodes.filterMap fun
    | ([name], .file content) =>
      if before.node? (.inside [name]) = some (.file content) then none else some (name, content)
    | _ => none

/-- Access to the files of a tree and to its streams. -/
def system : System (StateM FileTree) where
  read path := do return (← get).read path
  write path pieces := modifyGet fun t ↦
    let (t, outcome) := t.write path pieces
    (outcome, t)
  print s := modify (·.print s)
  printError s := modify (·.printError s)

end FileTree
end Command
end MipsAsm
