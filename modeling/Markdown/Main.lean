import Markdown.Command.Run

set_option autoImplicit false

namespace Markdown.Main

/-- The error has the given number, which comes with either sign. -/
def hasNumber (code number : UInt32) : Bool :=
  code == number || code == 0 - number

/-- What is wrong with a file, by the error that came up. -/
def faultKind (error : IO.Error) : FileFaultKind :=
  match error with
  | .noFileOrDirectory _ _ _ => .missing
  | .inappropriateType _ code _ => if hasNumber code 20 then .notDirectory else .isDirectory
  | .invalidArgument _ code _ =>
    if hasNumber code 36 then .nameTooLong else .other 22 "Invalid argument".toList
  | .permissionDenied _ _ _ => .other 13 "Permission denied".toList
  | _ => .other 5 error.toString.toList

def fileName (path : Path) : String :=
  String.ofList path.text.shown

def readPath (path : Path) : IO (Except FileFault (List UInt8)) := do
  try
    pure (.ok (← IO.FS.readBinFile (fileName path)).toList)
  catch error => pure (.error ⟨faultKind error, path⟩)

def pathsOf : Request → List Path
  | .help => []
  | .run given => given.configPath :: given.inputPath.toList

/-- Files whose contents have been read before. -/
def filesOf (known : List (Path × Except FileFault (List UInt8))) : Files :=
  let read := fun (path : Path) =>
    match known.find? fun entry => entry.1 = path with
    | some entry => entry.2
    | none => .error ⟨.missing, path⟩
  let isFile := fun (path : Path) =>
    match read path with
    | .ok _ => .ok true
    | .error ⟨.other code words, path⟩ => .error ⟨.other code words, path⟩
    | .error _ => .ok false
  ⟨isFile, read, fun _ => none, fun _ _ => none⟩

/-- Everything that a stream gives, put behind what it gave before. -/
partial def readStream (stream : IO.FS.Stream) (read : ByteArray) : IO ByteArray := do
  let more ← stream.read 65536
  if more.isEmpty then pure read else readStream stream (read ++ more)

def readInput : Request → IO (List UInt8)
  | .run given =>
    if given.inputPath.isNone then do pure (← readStream (← IO.getStdin) .empty).toList else pure []
  | .help => pure []

/-- Writes what a run gives, and gives the exit status. -/
def deliver (outcome : Outcome) : IO UInt32 := do
  (← IO.getStderr).putStr (String.ofList outcome.errors)
  (← IO.getStdout).putStr (String.ofList outcome.output)
  let failure ← match outcome.written with
    | none => pure none
    | some (path, content) =>
      try
        IO.FS.writeBinFile (fileName path) (ByteArray.mk content.toArray)
        pure none
      catch error => pure (some (FileFault.message ⟨faultKind error, path⟩))
  let failure := match outcome.ending with
    | .failed fault => some fault.message
    | _ => failure
  match failure with
  | none => pure (UInt32.ofNat (outcome.ending.status?.getD 1))
  | some message =>
    (← IO.getStderr).putStr (String.ofList (message ++ ['\n']))
    pure 1

/-- The number of levels that can be open. -/
def capacity : Nat := 250

end Markdown.Main

open Markdown in
/-- Runs the command with its arguments. -/
def main (arguments : List String) : IO UInt32 := do
  let arguments := arguments.map fun argument => Text.wide argument.toList
  match Request.ofArguments arguments with
  | .error error => Main.deliver (Command.misusedOutcome error)
  | .ok request =>
    let known ← (Main.pathsOf request).mapM fun path => do pure (path, ← Main.readPath path)
    let input ← Main.readInput request
    Main.deliver (Command.run Main.capacity (Main.filesOf known) input arguments)
