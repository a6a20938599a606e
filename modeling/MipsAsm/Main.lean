import MipsAsm.Command.Basic
import MipsAsm.Server.Basic
import MipsAsm.Server.Frame

/-!
# The program

Files and the standard streams of the system, connected to `Command.run` and
`Server.Connection.receive`.
-/

set_option autoImplicit false

namespace MipsAsm
namespace Program

open Command

/-- The number of the system for a file that stands where a folder is needed. -/
def notFolderCode : UInt32 := 20

/-- The number of the system for a path that is too long. -/
def nameTooLongCode : UInt32 := 36

/-- The number of the system for a file that takes nothing more. -/
def noSpaceCode : UInt32 := 28

/-- What is wrong with a file, from the error of the system.  Its number may come negated. -/
def problem : IO.Error → FileProblem
  | .noFileOrDirectory .. => .notFound
  | .permissionDenied .. => .forbidden
  | .inappropriateType _ code _ =>
    if code = notFolderCode ∨ code = -notFolderCode then .notFolder else .isFolder
  | .invalidArgument _ code details =>
    if code = nameTooLongCode ∨ code = -nameTooLongCode then .nameTooLong else .other details
  | .resourceExhausted _ code details =>
    if code = noSpaceCode ∨ code = -noSpaceCode then .noSpace else .other details
  | e => .other e.toString

/-- Access to the files and streams of the system. -/
def system : System IO where
  read path := do
    try return .ok (← IO.FS.readFile path)
    catch e => return .error (problem e)
  write path pieces := do
    try
      IO.FS.withFile path .write fun file ↦ do
        pieces.forM file.putStr
        file.flush
      return .ok ()
    catch e => return .error (problem e)
  print s := do
    let output ← IO.getStdout
    output.putStr s
    output.flush
  printError := IO.eprint

/-- Read the header of a frame, up to its empty line.  It is `none` at the end of the stream. -/
partial def readHeader (input : IO.FS.Stream) (length : Option Nat) : IO (Option Nat) := do
  let line ← input.getLine
  if line.isEmpty then return none
  else if Server.Frame.isEnd line then return length
  else readHeader input ((Server.Frame.length? line).or length)

/-- Read as many bytes as are asked for, or as many as there are. -/
partial def readBytes (input : IO.FS.Stream) (count : Nat) (done : ByteArray) : IO ByteArray := do
  if count ≤ done.size then return done
  let chunk ← input.read (count - done.size).toUSize
  if chunk.isEmpty then return done else readBytes input count (done ++ chunk)

/-- Read a message.  It is `none` if the stream ends or has no message. -/
def readMessage (input : IO.FS.Stream) : IO (Option Json) := do
  match ← readHeader input none with
  | none => return none
  | some length =>
    let bytes ← readBytes input length ByteArray.empty
    return (String.fromUTF8? bytes).bind Json.parse?

/-- Serve an editor until it ends the connection. -/
partial def serveEditor (settings : Settings) (c : Server.Connection) : IO UInt32 := do
  match ← readMessage (← IO.getStdin) with
  | none => return 0
  | some v =>
    match c.receive settings.options v with
    | none => do
      IO.eprintln Fault.outOfMemoryMessage
      return 1
    | some (c, step) => do
      IO.eprint (Log.render settings.traced step.log)
      let output ← IO.getStdout
      step.messages.forM fun message ↦ output.putStr (Server.Frame.render message.toJson)
      output.flush
      if c.state.closed then return 0 else serveEditor settings c

/-- How the program is used. -/
def usage : String :=
  "Usage:\n  " ++ program ++ " assemble sourceFile\n  " ++ program ++ " languageServer [debug]\n"

/-- Do what a command comes to.  The servers that listen on the network are not part of this
program. -/
def finish : Result → IO UInt32
  | .finished status => return status.toUInt32
  | .editor settings => serveEditor settings Server.Connection.start
  | .remoteEditors _ | .page _ => do
    IO.eprintln "Error: listening on the network is not supported"
    return 1
  | .help => do
    IO.print usage
    return 0
  | .completion shell => do
    IO.eprintln ("Error: there is no completion script for " ++ shell.text)
    return 1

end Program
end MipsAsm

/-- Run the program with the given arguments. -/
def main (args : List String) : IO UInt32 := do
  MipsAsm.Program.finish (← MipsAsm.Command.run MipsAsm.Program.system args)
