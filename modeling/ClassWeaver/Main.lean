import ClassWeaver.CommandLine
import ClassWeaver.Files
import ClassWeaver.Viewer

/-!
# The program

Reads and writes files for the command line, and runs the viewer on the lines of standard
input, each of which names a key or types its text.
-/

namespace ClassWeaver

namespace Main

/-- The string that a text spells; what is no UTF-8 becomes the replacement character. -/
def spelled (t : Text) : String := String.ofList (t.codes.map Char.ofNat)

/-- The fault of a file operation. -/
def faultOf (operation : Text) (path : Text) (e : IO.Error) : Fault :=
  Files.refuse operation path <|
    match e with
    | .noFileOrDirectory .. => "no such file or directory"
    | .inappropriateType .. => "is a directory"
    | .permissionDenied .. => "permission denied"
    | e => utf8 (toString e)

/-- A file as it was found: its contents or why it cannot be read, and whether it is missing. -/
structure Found where
  data : Except Fault (List UInt8)
  isMissing : Bool := false

/-- Looks for the file at a path. -/
def readFile (path : Text) : IO Found := do
  match ← (IO.FS.readBinFile (spelled path)).toBaseIO with
  | .ok data => return { data := .ok data.data.toList }
  | .error (.inappropriateType name code details) =>
    return { data := .error (faultOf "read" path (.inappropriateType name code details)) }
  | .error (.noFileOrDirectory name code details) =>
    return { data := .error (faultOf "open" path (.noFileOrDirectory name code details))
             isMissing := true }
  | .error e => return { data := .error (faultOf "open" path e) }

/-- Writes the file at a path. -/
def writeFile (output : Output) : IO (Except Fault Unit) := do
  match ← (IO.FS.writeBinFile (spelled output.path) ⟨output.data.toArray⟩).toBaseIO with
  | .ok () => return .ok ()
  | .error e => return .error (faultOf "open" output.path e)

/-- Writes bytes to a stream. -/
def emit (stream : IO.FS.Stream) (t : Text) : IO Unit := do
  stream.write ⟨t.toArray⟩
  stream.flush

/-- Prints what a session has printed. -/
def finish (s : Session) : IO UInt32 := do
  emit (← IO.getStdout) s.out
  emit (← IO.getStderr) s.err
  return s.status.toUInt32

/-- Shows the viewer and reads keys until it ends. -/
partial def interact (v : Viewer) : IO UInt32 := do
  emit (← IO.getStdout) (Text.join "\n" v.screen ++ "\n")
  let line ← (← IO.getStdin).getLine
  if line.isEmpty then return 0
  match v.update (.ofName (utf8 (line.trimAsciiEnd.toString))) with
  | .ok (v, false) => interact v
  | .ok (_, true) => return 0
  | .error _ => return 1

/-- Runs a call with the configuration and input that its options name. -/
def call (args : List Text) : IO UInt32 := do
  let o := (Options.parse {} args).toOption.getD {}
  let config ← readFile o.config
  let input ← readFile o.input
  let read (path : Text) := if path = o.config then config.data else input.data
  match CommandLine.run read (fun path => path = o.config && config.isMissing) args with
  | .error _ => return 1
  | .ok (s, .done) => finish s
  | .ok (s, .writes output) => do finish (s.wrote output (← writeFile output))
  | .ok (_, .shows path plan) =>
    match ({ file := path, plan } : Viewer).load (read path) with
    | .ok v => interact v
    | .error _ => return 1

end Main

end ClassWeaver

/-- Weaves the class file that the arguments name. -/
def main (args : List String) : IO UInt32 := ClassWeaver.Main.call (args.map ClassWeaver.utf8)
