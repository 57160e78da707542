import LiveProse.Command.CommandLine

/-!
The program: the command line on the disk.
-/

namespace LiveProse

/-- The fault that a failure of the system stands for. A wrong type that is reported with the path
was met when the path was opened, on the way to the file; otherwise it is that of the file. A name
that is too long is an argument that is refused under the number 36, given as its negative. -/
def ReadFault.ofSystem : IO.Error → ReadFault
  | .noFileOrDirectory .. => .notFound
  | .permissionDenied .. => .permissionDenied
  | .inappropriateType (some _) .. => .notDirectory
  | .inappropriateType none .. => .isDirectory
  | error@(.invalidArgument _ code _) =>
    if code = 0 - 36 then .nameTooLong else .other error.toString
  | error => .other error.toString

/-- Reads a file from the disk. -/
def readFromDisk (path : Text) : IO (Except ReadFault Text) := do
  match ← (IO.FS.readBinFile (String.ofList path)).toBaseIO with
  | .error error => return .error (.ofSystem error)
  | .ok bytes =>
    match String.fromUTF8? bytes with
    | some text => return .ok text.toList
    | none => return .error .notText

end LiveProse

open LiveProse in
/-- Runs the program, prints what it says and answers its exit code. -/
def main (arguments : List String) : IO UInt32 := do
  let outcome ← CommandLine.run readFromDisk (arguments.map String.toList)
  IO.eprint outcome.errors
  IO.print outcome.output
  return outcome.code
