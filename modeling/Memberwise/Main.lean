/-
  Memberwise/Main.lean
  ====================
  **The program.**

  Reads the command and its input, and carries out what the command leads to.
-/
import Memberwise.Command.Arguments

namespace Memberwise

def failureCause : IO.Error → String
  | .noFileOrDirectory .. => "No such file or directory (os error 2)"
  | .permissionDenied .. => "Permission denied (os error 13)"
  | .inappropriateType _ code _ =>
    if code = 21 then "Is a directory (os error 21)" else "Not a directory (os error 20)"
  | error => toString error

/-- The surroundings of a command, with its input read.  Every place is taken to be endless
    until writing to it fails. -/
def surroundings (input : Input) : IO Surroundings := do
  let bytes : Except String ByteArray ←
    try
      match input with
      | .standard => pure (.ok (← (← IO.getStdin).readBinToEnd))
      | .file path => pure (.ok (← IO.FS.readBinFile path))
    catch error => pure (.error (failureCause error))
  return {
    standardInput := bytes
    standardOutput := .endless
    standardError := .endless
    contents := fun _ => bytes
    opened := fun _ => .ok .endless
    file := id
    keeps := fun _ => true }

def writeFile (path : String) (bytes : ByteArray) : IO (Except String Sink) := do
  match ← (IO.FS.Handle.mk path .write).toBaseIO with
  | .error error => return .error (failureCause error)
  | .ok handle =>
    try
      handle.write bytes
      handle.flush
      return .ok .endless
    catch error => return .ok (.bounded 0 (failureCause error))

def print (stream : IO.FS.Stream) (bytes : ByteArray) : IO Sink := do
  try
    stream.write bytes
    stream.flush
    return .endless
  catch error => return .bounded 0 (failureCause error)

/-- Carries out a command and gives its exit code.  If a place turns out not to take what is
    written to it, the outcome is the one in surroundings where it does not. -/
def Command.carryOut (command : Command) : IO Nat := do
  let around ← surroundings command.input
  let outcome := command.run around
  let outcome ←
    match outcome.written? with
    | none => pure outcome
    | some (path, bytes) =>
      match ← writeFile path bytes with
      | .ok .endless => pure outcome
      | sink =>
        let around := { around with opened := fun _ => sink }
        pure (command.run around)
  let errorSink ← print (← IO.getStderr) outcome.errors
  let outputSink ← print (← IO.getStdout) outcome.output
  match errorSink, outputSink with
  | .endless, .endless => return outcome.exitCode
  | _, _ =>
    let around := { around with standardError := errorSink, standardOutput := outputSink }
    return (command.run around).exitCode

end Memberwise

open Memberwise in
def main (arguments : List String) : IO UInt32 := do
  match Command.ofArguments arguments with
  | .error error =>
    (← IO.getStderr).putStrLn ("error: " ++ error.message)
    return 2
  | .ok command => return (← command.carryOut).toUInt32
