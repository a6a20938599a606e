import MipsAsm.Text.Quoted

/-!
# Flags

The arguments of a command are flags and operands in any order.  A flag has a long form `--name` and
may have a short form of one letter, `-n`.  A flag that takes a value finds it after an equals sign
(`--name=value`, `-n=value`), in the same argument (`-nvalue`) or in the next one (`--name value`,
`-n value`).  A switch takes no value but may be given one after an equals sign, and short switches
may share one argument.  After `--` everything is an operand, and so is `-` alone.

These are the rules of `pflag`, the package below the command line.  They are followed as far as the
program has flags to try them on, with the wording of what is wrong with a flag.
-/

set_option autoImplicit false

namespace MipsAsm
namespace Command

/-- A flag. -/
structure Flag where
  /-- The name of its long form. -/
  name : String
  /-- The letter of its short form. -/
  short : Option Char
  /-- Whether it is a switch, which takes no value. -/
  isSwitch : Bool
deriving DecidableEq, Repr, Inhabited

/-- What can be wrong with the flags of a command. -/
inductive FlagError where
  /-- An argument that starts like a flag and is none. -/
  | badForm (arg : String)
  /-- A long form that the command does not have. -/
  | unknown (name : String)
  /-- A short form that the command does not have. -/
  | unknownShort (letter : Char) (letters : String)
  /-- A long form without the value it takes. -/
  | valueMissing (arg : String)
  /-- A short form without the value it takes. -/
  | shortValueMissing (letter : Char) (letters : String)
  /-- A switch with a value that is neither on nor off. -/
  | invalidSwitch (flag : Flag) (value : String)
deriving DecidableEq, Repr

/-- The forms of a flag as they are shown. -/
def Flag.shown (f : Flag) : String :=
  match f.short with
  | some c => "-" ++ String.singleton c ++ ", --" ++ f.name
  | none => "--" ++ f.name

/-- The character of the first byte of a character. -/
def firstByte (c : Char) : Char :=
  Char.ofNat (((String.singleton c).toUTF8.data[0]?.getD 0).toNat)

/-- The wording of what is wrong with the flags of a command. -/
def FlagError.message : FlagError → String
  | .badForm arg => "bad flag syntax: " ++ arg
  | .unknown name => "unknown flag: --" ++ name
  | .unknownShort letter letters =>
    "unknown shorthand flag: " ++ Text.quotedChar (firstByte letter) ++ " in -" ++ letters
  | .valueMissing arg => "flag needs an argument: " ++ arg
  | .shortValueMissing letter letters =>
    "flag needs an argument: " ++ Text.quotedChar (firstByte letter) ++ " in -" ++ letters
  | .invalidSwitch flag value =>
    "invalid argument " ++ Text.quoted value ++ " for " ++ Text.quoted flag.shown
      ++ " flag: strconv.ParseBool: parsing " ++ Text.quoted value ++ ": invalid syntax"

/-- The words for a switch that is on or off. -/
def switchValue? (value : String) : Option Bool :=
  if value ∈ ["1", "t", "T", "TRUE", "true", "True"] then some true
  else if value ∈ ["0", "f", "F", "FALSE", "false", "False"] then some false
  else none

/-- The arguments of a command, taken apart. -/
structure Arguments where
  /-- The values given to flags, by name, in order. -/
  values : List (String × String)
  /-- The operands. -/
  operands : List String
deriving DecidableEq, Repr, Inhabited

namespace Arguments

/-- No arguments at all. -/
def empty : Arguments := { values := [], operands := [] }

/-- The value given last to a flag. -/
def value? (a : Arguments) (name : String) : Option String :=
  (a.values.reverse.find? (·.1 == name)).map Prod.snd

/-- Whether a switch was given last as on. -/
def isOn (a : Arguments) (name : String) : Bool :=
  ((a.value? name).bind switchValue?).getD false

/-- Give a flag a value. -/
def give (a : Arguments) (flag : Flag) (value : String) : Except FlagError Arguments :=
  if flag.isSwitch ∧ switchValue? value = none then
    .error (.invalidSwitch flag value)
  else
    .ok { a with values := a.values ++ [(flag.name, value)] }

/-- Add an operand. -/
def addOperand (a : Arguments) (operand : String) : Arguments :=
  { a with operands := a.operands ++ [operand] }

end Arguments

/-- What an argument with flags leads to: the arguments so far, or a flag that finds its value in
the next argument. -/
inductive Progress where
  /-- The argument was taken in. -/
  | done (a : Arguments)
  /-- A flag still needs its value. -/
  | awaiting (flag : Flag) (a : Arguments) (missing : FlagError)

/-- Take in the long form of a flag, without its two dashes. -/
def readLong (flags : List Flag) (a : Arguments) (cs : List Char) : Except FlagError Progress :=
  let arg := "--" ++ String.ofList cs
  if cs.head? = some '-' ∨ cs.head? = some '=' then
    .error (.badForm arg)
  else
    let name := String.ofList (cs.takeWhile (· != '='))
    match flags.find? (·.name == name), cs.dropWhile (· != '=') with
    | none, _ => .error (.unknown name)
    | some flag, _ :: value => (a.give flag (String.ofList value)).map .done
    | some flag, [] =>
      if flag.isSwitch then (a.give flag "true").map .done
      else .ok (.awaiting flag a (.valueMissing arg))

/-- Take in short forms that share an argument, without its dash.  Arguments that start with `test.`
are skipped. -/
def readShort (flags : List Flag) (a : Arguments) : List Char → Except FlagError Progress
  | [] => .ok (.done a)
  | letter :: rest =>
    let letters := String.ofList (letter :: rest)
    if "test.".toList.isPrefixOf (letter :: rest) then
      .ok (.done a)
    else
      match flags.find? (·.short == some letter), rest with
      | none, _ => .error (.unknownShort letter letters)
      | some flag, '=' :: c :: value => (a.give flag (String.ofList (c :: value))).map .done
      | some flag, rest =>
        if flag.isSwitch then
          match a.give flag "true" with
          | .error e => .error e
          | .ok a => readShort flags a rest
        else if rest.isEmpty then .ok (.awaiting flag a (.shortValueMissing letter letters))
        else (a.give flag (String.ofList rest)).map .done

/-- Take in an argument that starts with a dash and has more to it. -/
def readFlag (flags : List Flag) (a : Arguments) : List Char → Except FlagError Progress
  | '-' :: cs => readLong flags a cs
  | cs => readShort flags a cs

/-- Take the arguments of a command apart, after the part that is in `a`. -/
def readArguments (flags : List Flag) (a : Arguments) :
    List String → Except FlagError Arguments
  | [] => .ok a
  | arg :: rest =>
    match arg.toList with
    | ['-', '-'] => .ok { a with operands := a.operands ++ rest }
    | '-' :: c :: cs =>
      match readFlag flags a (c :: cs), rest with
      | .error e, _ => .error e
      | .ok (.done a), rest => readArguments flags a rest
      | .ok (.awaiting _ _ missing), [] => .error missing
      | .ok (.awaiting flag a _), value :: rest =>
        match a.give flag value with
        | .error e => .error e
        | .ok a => readArguments flags a rest
    | _ => readArguments flags (a.addOperand arg) rest

end Command
end MipsAsm
