import Dcpu.Command.Arguments
import Dcpu.Command.Run

set_option autoImplicit false

namespace Dcpu

namespace CommandLine

def toString (t : Text) : String := String.ofList t.chars

def toBytes (t : Text) : ByteArray := ⟨t.toArray⟩

def reason : IO.Error → FileReason
  | .noFileOrDirectory .. => .notFound
  -- These numbers are those that the system gives to the three reasons.
  | .inappropriateType _ 20 _ => .notDirectory
  | .inappropriateType _ 21 _ => .isDirectory
  | .invalidArgument _ 36 _ => .nameTooLong
  | .permissionDenied _ _ details => .other details
  | e => .other (e.toString : String)

def kind (path : Text) : IO (Except FileError FileKind) := do
  -- Opening a file shows that it exists; reading from it fails for a directory.
  match ← (IO.FS.Handle.mk (toString path) .read).toBaseIO with
  | .error e => return .error ⟨.stat, path, reason e⟩
  | .ok file =>
      match ← (file.read 1).toBaseIO with
      | .ok _ => return .ok .file
      | .error _ => return .ok .directory

def read (path : Text) : IO (Except FileError Text) := do
  match ← (IO.FS.Handle.mk (toString path) .read).toBaseIO with
  | .error e => return .error ⟨.opening, path, reason e⟩
  | .ok file =>
      match ← file.readBinToEnd.toBaseIO with
      | .ok bytes => return .ok bytes.toList
      | .error _ => return .error ⟨.reading, path, .isDirectory⟩

def write (path bytes : Text) : IO (Except FileError Unit) := do
  match ← (IO.FS.writeBinFile (toString path) (toBytes bytes)).toBaseIO with
  | .ok () => return .ok ()
  | .error e => return .error ⟨.opening, path, reason e⟩

partial def readAll (stream : IO.FS.Stream) (found : ByteArray) : IO ByteArray := do
  let more ← stream.read 4096
  if more.isEmpty then return found else readAll stream (found ++ more)

instance : Host IO where
  kind := kind
  read := read
  write := write
  input := do return (← readAll (← IO.getStdin) .empty).toList
  inputIsTerminal := do (← IO.getStdin).isTty
  outputIsTerminal := do (← IO.getStdout).isTty
  print text := do (← IO.getStdout).write (toBytes text)
  log text := do (← IO.getStderr).write (toBytes text)

end CommandLine

end Dcpu

open Dcpu in
def main (arguments : List String) : IO UInt32 := do
  match Command.Request.ofArguments (arguments.map Text.ofString) with
  | .ok (.assemble flags paths) => return (← Command.assemble flags paths).toUInt32
  | .ok (.run flags path) => return (← Command.run flags path).toUInt32
  | .error e =>
      Host.log (e.message ++ "\n")
      return 1
