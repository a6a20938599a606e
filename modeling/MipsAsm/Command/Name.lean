import MipsAsm.Command.Flags
import MipsAsm.Text.Lowercase

/-!
# Commands and their names

The command is the first argument that is neither a flag nor the value of one.  A command may have
commands of its own, which are found in the same way among the arguments left for it.  A name that
is no command is answered with the commands that come close to it.

These are the rules of `cobra`, the package below the command line, down to the commands for help
and for completion scripts, which it adds by itself, and to what counts as close: a small edit
distance, or the first letters of a command.

* `Command.commandName?` — the name of the command among all arguments.
* `Command.withoutName` — the arguments that are left for the command.
* `Command.enter` — the command that arguments name inside another.
* `Command.suggestions` — the commands whose names are close to a name that is none.
-/

set_option autoImplicit false

namespace MipsAsm
namespace Command

/-! ## Commands

The commands form a tree of two levels.  The program itself and `completion` do nothing but lead to
the commands below them. -/

/-- The shells that a completion script can be written for. -/
inductive Shell where
  /-- The shell `bash`. -/
  | bash
  /-- The shell `fish`. -/
  | fish
  /-- The shell `powershell`. -/
  | powershell
  /-- The shell `zsh`. -/
  | zsh
deriving DecidableEq, Repr, Inhabited

/-- The name of a shell. -/
def Shell.text : Shell → String
  | .bash => "bash"
  | .fish => "fish"
  | .powershell => "powershell"
  | .zsh => "zsh"

/-- The commands. -/
inductive Name where
  /-- No command. -/
  | root
  /-- Assemble a file. -/
  | assemble
  /-- Serve an editor. -/
  | languageServer
  /-- Serve the page. -/
  | serve
  /-- Print help. -/
  | help
  /-- Name a shell to print a completion script for. -/
  | completion
  /-- Print the completion script for a shell. -/
  | completionFor (shell : Shell)
deriving DecidableEq, Repr, Inhabited

/-- The name of the program. -/
def program : String := "mipsasm"

/-- The words that lead to a command. -/
def Name.path : Name → String
  | .root => program
  | .assemble => program ++ " assemble"
  | .languageServer => program ++ " languageServer"
  | .serve => program ++ " serve"
  | .help => program ++ " help"
  | .completion => program ++ " completion"
  | .completionFor shell => program ++ " completion " ++ shell.text

/-- Whether there is something to do for a command on its own. -/
def Name.isRunnable : Name → Bool
  | .root | .completion => false
  | _ => true

/-- The flag with the path of the settings, which all commands have. -/
def settingsFlag : Flag := { name := "config", short := none, isSwitch := false }

/-- The flag that asks for help, which all commands have. -/
def helpFlag : Flag := { name := "help", short := some 'h', isSwitch := true }

/-- The flags of a command. -/
def Name.flags : Name → List Flag
  | .assemble =>
    [settingsFlag, helpFlag,
      { name := "output", short := some 'o', isSwitch := false },
      { name := "intermediate", short := none, isSwitch := false },
      { name := "symbols", short := none, isSwitch := false },
      { name := "relocations", short := none, isSwitch := false },
      { name := "dump", short := none, isSwitch := true }]
  | .completionFor _ =>
    [settingsFlag, helpFlag, { name := "no-descriptions", short := none, isSwitch := true }]
  | .root | .languageServer | .serve | .help | .completion => [settingsFlag, helpFlag]

/-- The command with a name inside a command. -/
def Name.inner? : Name → String → Option Name
  | .root, "assemble" => some .assemble
  | .root, "languageServer" => some .languageServer
  | .root, "serve" => some .serve
  | .root, "help" => some .help
  | .root, "completion" => some .completion
  | .completion, "bash" => some (.completionFor .bash)
  | .completion, "fish" => some (.completionFor .fish)
  | .completion, "powershell" => some (.completionFor .powershell)
  | .completion, "zsh" => some (.completionFor .zsh)
  | _, _ => none

/-- The names that are suggested for a name that is no command. -/
def suggestible : List String := ["assemble", "languageServer", "serve", "completion"]

/-! ## Finding the command

The command is found before its flags are known, and only then are the flags read.  So an argument
after a flag can be passed over as a value here that turns out to be none. -/

/-- Whether an argument in front of a command is a flag whose value is the next argument.  The flags
of the command are not known at that point, so every flag counts as taking a value, unless it is a
long form with an equals sign or short forms that share an argument. -/
def takesNext (arg : String) : Bool :=
  let cs := arg.toList
  !cs.contains '=' && cs.head? == some '-'
    && (cs.tail.head? == some '-' || arg.utf8ByteSize == 2)

/-- The first argument that is no flag and no value of one: the name of a command. -/
def commandName? : List String → Option String
  | [] => none
  | arg :: rest =>
    if arg = "--" then none
    else if takesNext arg then
      match rest with
      | _ :: next :: rest => commandName? (next :: rest)
      | _ => none
    else if arg ≠ "" ∧ arg.toList.head? ≠ some '-' then some arg
    else commandName? rest

/-- The arguments without the first one that is the name of the command. -/
def withoutName (name : String) : List String → List String
  | [] => []
  | arg :: rest =>
    if arg = "--" then arg :: rest
    else if takesNext arg then
      match rest with
      | value :: rest => arg :: value :: withoutName name rest
      | [] => [arg]
    else if arg = name then rest
    else arg :: withoutName name rest

/-- The command that the arguments of a command name inside it, or that command itself if they name
none, and the arguments that are left. -/
def enter (name : Name) (args : List String) : Name × List String :=
  match commandName? args with
  | none => (name, args)
  | some text =>
    match name.inner? text with
    | none => (name, args)
    | some inner => (inner, withoutName text args)

/-! ## Suggestions

Distances are counted in bytes, row by row of the usual table, of which only the last row is
kept. -/

/-- Given the edit distances between a text and the texts that `other` starts with, the shortest
first, the distances after one more byte of the text. -/
def distanceRow (other : List UInt8) (row : List Nat) (b : UInt8) : List Nat :=
  match row with
  | [] => []
  | first :: rest =>
    let step (acc : List Nat × Nat) (entry : UInt8 × Nat) : List Nat × Nat :=
      let (done, diagonal) := acc
      let (c, above) := entry
      let next := if b = c then diagonal else min (min (done.headD 0) above) diagonal + 1
      (next :: done, above)
    ((other.zip rest).foldl step ([first + 1], first)).1.reverse

/-- The number of bytes to insert, to delete or to change on the way from one text to another. -/
def editDistance (bytes other : List UInt8) : Nat :=
  (bytes.foldl (distanceRow other) (List.range (other.length + 1))).getLastD 0

/-- The bytes of a text in lowercase. -/
def lowerBytes (s : String) : List UInt8 := (s.map Text.lowercase).toUTF8.data.toList

/-- How far from a name a command may be to be suggested for it. -/
def suggestionDistance : Nat := 2

/-- The commands that come close to a name or start with it, up to case. -/
def suggestions (name : String) : List String :=
  suggestible.filter fun command ↦
    editDistance (lowerBytes name) (lowerBytes command) ≤ suggestionDistance
      || (lowerBytes name).isPrefixOf (lowerBytes command)

/-- The message of a name that is no command. -/
def unknownCommandMessage (name : String) : String :=
  "unknown command " ++ Text.quoted name ++ " for " ++ Text.quoted program
    ++ match suggestions name with
      | [] => ""
      | names => "\n\nDid you mean this?\n" ++ String.join (names.map fun n ↦ "\t" ++ n ++ "\n")

end Command
end MipsAsm
