import TensorLowering.Command.Run

/-!
# The command line program

Reads the one file that a request may need, answers the request, and prints the answer.
-/

namespace TensorLowering.Command

/-- The report of the system as a file error. -/
def fileError : IO.Error → FileError
  | .noFileOrDirectory .. => .notFound
  | .inappropriateType .. => .isDirectory
  | error => .system (toString error)

/-- A reader that knows the file at one path. -/
def readerOf (path : String) : IO FileReader := do
  let content : Except FileError ByteArray ←
    try
      let bytes ← IO.FS.readBinFile path
      pure (.ok bytes)
    catch error =>
      pure (.error (fileError error))
  return fun asked => if asked = path then content else .error .notFound

/-- The reader that a command line needs. -/
def readerFor (args : List String) : IO FileReader :=
  match Request.ofArgs args with
  | .ok request =>
    match request.path? with
    | some path => readerOf path
    | none => return fun _ => .error .notFound
  | .error _ => return fun _ => .error .notFound

end TensorLowering.Command

open TensorLowering

/-- Runs the command line. -/
def main (args : List String) : IO UInt32 := do
  let read ← Command.readerFor args
  let output := Command.run read args
  (← IO.getStdout).putStr output.stdout
  (← IO.getStderr).putStr output.stderr
  return output.exit.toUInt32
