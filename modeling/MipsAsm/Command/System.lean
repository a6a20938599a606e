/-!
# The system

The command line reads and writes files and writes to the standard streams.  It does so through a
`System`, which is a record of operations in some monad.

* `Command.FileProblem` — why a file cannot be read or written.
* `Command.System` — the operations.
* `Command.pathParts`, `Command.baseName` — paths taken apart.
-/

set_option autoImplicit false

namespace MipsAsm
namespace Command

/-! ## Operations

A problem keeps its kind, not only its wording: which operation is named in the message, and whether
a missing file of settings is a problem at all, depends on the kind. -/

/-- Why a file cannot be read or written. -/
inductive FileProblem where
  /-- There is no such file or folder. -/
  | notFound
  /-- A file stands where a folder is needed. -/
  | notFolder
  /-- A folder stands where a file is needed. -/
  | isFolder
  /-- A path, or a part of one, that is longer than the system allows. -/
  | nameTooLong
  /-- A folder that does not take the file. -/
  | forbidden
  /-- A file that takes nothing more. -/
  | noSpace
  /-- A device that is not there. -/
  | noDevice
  /-- Something else, in the words of the system. -/
  | other (details : String)
deriving DecidableEq, Repr, Inhabited

namespace FileProblem

/-- The wording of a problem. -/
def text : FileProblem → String
  | .notFound => "no such file or directory"
  | .notFolder => "not a directory"
  | .isFolder => "is a directory"
  | .nameTooLong => "file name too long"
  | .forbidden => "permission denied"
  | .noSpace => "no space left on device"
  | .noDevice => "no such device or address"
  | .other details => details

/-- The message of a file that cannot be read.  A folder can be opened but not read. -/
def readMessage (path : String) (p : FileProblem) : String :=
  (if p = .isFolder then "read " else "open ") ++ path ++ ": " ++ p.text

/-- The message of a file that cannot be written.  A file that takes nothing more can be opened but
not written. -/
def writeMessage (path : String) (p : FileProblem) : String :=
  (if p = .noSpace then "write " else "open ") ++ path ++ ": " ++ p.text

end FileProblem

/-- Access to files and to the standard streams. -/
structure System (m : Type → Type) where
  /-- The content of the file with a path. -/
  read : String → m (Except FileProblem String)
  /-- Write pieces of text one after the other in place of the content of the file with a path. -/
  write : String → List String → m (Except FileProblem Unit)
  /-- Write a text to the standard output. -/
  print : String → m Unit
  /-- Write a text to the error output. -/
  printError : String → m Unit

/-! ## Paths -/

/-- The parts of a path between its slashes. -/
def pathParts (path : String) : List String :=
  (path.toList.foldr (fun c parts ↦
    if c = '/' then [] :: parts else parts.modifyHead (c :: ·)) [[]]).map String.ofList

/-- The last part of a path that is not empty.  The empty path has the name of the working
directory and a path of slashes only the name of the root. -/
def baseName (path : String) : String :=
  if path = "" then "."
  else ((pathParts path).reverse.find? (· != "")).getD "/"

end Command
end MipsAsm
