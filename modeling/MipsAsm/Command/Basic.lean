import MipsAsm.Assembly.Basic
import MipsAsm.Command.Name
import MipsAsm.Command.System
import MipsAsm.Settings

/-!
# The command line

    mipsasm assemble sourceFile
    mipsasm languageServer [debug|tcp]
    mipsasm serve
    mipsasm help [command]
    mipsasm completion (bash|fish|powershell|zsh)

`Command.run` finds the command, takes its arguments apart, reads the settings and assembles a file.
Everything it reads and writes goes through a `System`.  A server is not run here: what comes out
says which one to start.  Nor are help and completion scripts written here: what comes out says
which one to print.

Of two mistakes the first in this order counts: the name of the command, the flags, the number of
operands, the settings, and what the command itself finds.

The messages about operands are those of `cobra` (see `Command.Name`), and the dump of a table is
what `pp`, a printer for debugging, makes of it.
-/

set_option autoImplicit false

namespace MipsAsm
namespace Command

/-! ## Operands -/

/-- What is wrong with the operands of a command. -/
def operandProblem? (name : Name) (operands : List String) : Option String :=
  let count := Text.decimal operands.length
  match name, operands with
  | .assemble, [_] => none
  | .assemble, _ => some ("accepts 1 arg(s), received " ++ count)
  | .languageServer, [] | .languageServer, [_] => none
  | .languageServer, _ => some ("accepts at most 1 arg(s), received " ++ count)
  | .serve, operand :: _ | .completionFor _, operand :: _ =>
    some ("unknown command " ++ Text.quoted operand ++ " for " ++ Text.quoted name.path)
  | _, _ => none

/-! ## Results

Commands that run until they are stopped are results here and not actions, so that `Command.run`
ends for all arguments. -/

/-- What comes of a command. -/
inductive Result where
  /-- The command is done. -/
  | finished (status : Nat)
  /-- An editor is to be served on standard input and output. -/
  | editor (settings : Settings)
  /-- Editors are to be served over the network. -/
  | remoteEditors (settings : Settings)
  /-- The page is to be served. -/
  | page (settings : Settings)
  /-- Help is to be printed. -/
  | help
  /-- A completion script is to be printed. -/
  | completion (shell : Shell)
deriving DecidableEq, Repr, Inhabited

/-! ## Assembling a file

Everything that is said about the file goes to the error output before anything is written, and
files are written only if there is no error.  Files that were written stay if a later one cannot
be. -/

/-- How many entries a dump shows at most. -/
def dumpLimit : Nat := 1024

/-- A table as it is dumped.  This is how the package `pp` prints a slice of records without
colours: the type in front, a line for each field, and dots for a slice that is too long. -/
def dumpText (title : String) (t : SymbolTable) : String :=
  let type := "assembler.Symbol"
  let entry (s : Symbol) : String :=
    "  " ++ type ++ Text.braced "«\n    Name: " ++ Text.quoted s.name ++ ",\n    Addr: "
      ++ Text.decimal s.address.toNat ++ Text.braced ",\n  »,\n"
  title ++ ": []" ++ type ++ Text.braced "«"
    ++ (if t.size = 0 then ""
      else if dumpLimit < t.size then "..."
      else "\n" ++ String.join (t.entries.toList.map entry))
    ++ Text.braced "»\n"

/-- A diagnostic as a line. -/
def diagnosticLine (path : String) (d : Diagnostic) : String :=
  "\t" ++ baseName path ++ ":" ++ Text.signedDecimal (d.range.start.line + 1) ++ ":"
    ++ Text.signedDecimal d.range.start.character ++ ": " ++ d.message ++ "\n"

/-- All diagnostics, under a heading if there are any. -/
def diagnosticsText (path : String) (a : Assembly) : String :=
  if a.diagnostics.isEmpty then ""
  else "Diagnostics:\n" ++ String.join (a.diagnostics.toList.map (diagnosticLine path))

/-- What is written to the error output about an assembled file. -/
def assemblyErrors (settings : Settings) (arguments : Arguments) (path : String) (a : Assembly) :
    String :=
  Log.render settings.traced a.log
    ++ (if arguments.isOn "dump" then
        dumpText "Symbols" a.labels ++ dumpText "Relocations" a.relocations
      else "")
    ++ diagnosticsText path a

/-- The files to write, with the pieces of their contents.  A table is written line by line, and
everything else at once.  An empty path stands for none. -/
def outputs (arguments : Arguments) (a : Assembly) : List (String × List String) :=
  [((arguments.value? "intermediate").getD "", [a.listing]),
    ((arguments.value? "symbols").getD "", a.labels.lines),
    ((arguments.value? "relocations").getD "", a.relocations.lines),
    ((arguments.value? "output").getD "-", [a.hexText])]

section Monadic

variable {m : Type → Type} [Monad m]

/-- End a command that failed. -/
def fail (system : System m) (message : String) : m Result := do
  system.printError ("Error: " ++ message ++ "\n")
  return .finished 1

/-- Write files one after the other, up to the first that cannot be written.  The path `-` stands
for the standard output. -/
def writeOutputs (system : System m) : List (String × List String) → m Result
  | [] => return .finished 0
  | (path, pieces) :: rest =>
    if path = "" then writeOutputs system rest
    else if path = "-" then do
      system.print (String.join pieces)
      writeOutputs system rest
    else do
      match ← system.write path pieces with
      | .error p => fail system (p.writeMessage path)
      | .ok () => writeOutputs system rest

/-- Assemble a file and write what was asked for, if there is no error in it. -/
def assembleFile (system : System m) (settings : Settings) (arguments : Arguments)
    (path : String) : m Result := do
  match ← system.read path with
  | .error p => fail system ("could not read file " ++ path ++ ": " ++ p.readMessage path)
  | .ok source =>
    match MipsAsm.assemble settings.options source with
    | none => do
      system.printError (Fault.outOfMemoryMessage ++ "\n")
      return .finished 1
    | some a => do
      system.printError (assemblyErrors settings arguments path a)
      match a.diagnostics.countP Diagnostic.isError with
      | 0 => writeOutputs system (outputs arguments a)
      | count =>
        fail system ("could not assemble " ++ path ++ ": " ++ Text.decimal count ++ " error(s)")

/-- Read the settings.  A file that does not exist stands for the defaults. -/
def loadSettings (system : System m) (path : String) : m (Except String Settings) := do
  match ← system.read path with
  | .error .notFound => return .ok {}
  | .error p => return .error (p.readMessage path)
  | .ok text => return (Settings.parse text).mapError Settings.Problem.message

/-- Run a command with its settings. -/
def perform (system : System m) (name : Name) (arguments : Arguments) (settings : Settings) :
    m Result :=
  match name, arguments.operands with
  | .assemble, path :: _ => assembleFile system settings arguments path
  | .languageServer, ["tcp"] => return .remoteEditors settings
  | .languageServer, ["debug"] => return .editor { settings with loggingEnabled := true }
  | .languageServer, _ => return .editor settings
  | .serve, _ => return .page settings
  | .completionFor shell, _ => return .completion shell
  | _, _ => return .help

/-- Run the command `name` with the arguments that are left. -/
def runCommand (system : System m) (name : Name) (args : List String) : m Result :=
  match readArguments name.flags Arguments.empty args with
  | .error e => fail system e.message
  | .ok arguments =>
    if arguments.isOn "help" || !name.isRunnable then
      return .help
    else
      match operandProblem? name arguments.operands with
      | some message => fail system message
      | none => do
        let path := (arguments.value? "config").getD Settings.defaultPath
        match ← loadSettings system path with
        | .error message => fail system ("could not load " ++ path ++ ": " ++ message)
        | .ok settings => perform system name arguments settings

/-- Run the program with the given arguments. -/
def run (system : System m) (args : List String) : m Result :=
  match enter .root args with
  | (.root, args) =>
    match commandName? args with
    | none => runCommand system .root args
    | some text =>
      fail system (unknownCommandMessage text ++ "\nRun '" ++ program ++ " --help' for usage.")
  | (name, args) =>
    let (name, args) := enter name args
    runCommand system name args

end Monadic

end Command
end MipsAsm
