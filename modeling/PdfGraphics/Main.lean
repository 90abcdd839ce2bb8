import PdfGraphics.Dump
/-!
The command line.
-/

namespace PdfGraphics

-- What the operating system says of a file that could not be read.
def cause : IO.Error → String
  | .noFileOrDirectory .. => "No such file or directory (os error 2)"
  | .permissionDenied .. => "Permission denied (os error 13)"
  | .inappropriateType .. => "Is a directory (os error 21)"
  | e => toString e

def readBytes (path : String) : IO (Except String (List UInt8)) := do
  try
    return .ok (← IO.FS.readBinFile path).data.toList
  catch e =>
    return .error (cause e)

end PdfGraphics

def main (args : List String) : IO UInt32 := do
  let file ← PdfGraphics.readBytes (args.headD "")
  let result := PdfGraphics.Dump.run args fun _ => file
  IO.print result.stdout
  IO.eprint result.stderr
  return result.exitCode
