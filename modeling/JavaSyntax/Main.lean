import JavaSyntax.CommandLine

namespace JavaSyntax.CommandLine

def usage : String := "usage: dump PATH | check PATH\n"

/-- Reads a file as a text. -/
def readText (path : String) : IO (Except ReadError String) := do
  try
    let bytes ← IO.FS.readBinFile path
    match String.fromUTF8? bytes with
    | none => pure (.error .notText)
    | some text => pure (.ok text)
  catch
    | .noFileOrDirectory .. => pure (.error .missing)
    | .inappropriateType _ 20 _ => pure (.error .notDirectory)
    | _ => pure (.error .directory)

/-- Answers the arguments on the standard streams. -/
def serve (arguments : List String) : IO UInt32 := do
  match read? arguments with
  | none =>
    IO.eprint usage
    pure 2
  | some (order, path) =>
    let report := report order path (← readText path)
    IO.print report.output
    IO.eprint report.errors
    pure report.exit

end JavaSyntax.CommandLine

def main (arguments : List String) : IO UInt32 := JavaSyntax.CommandLine.serve arguments
