import EditableGrammar.CommandLine.Run

set_option autoImplicit false

/-!
# The program

Everything is decided by `CommandLine.run`; here files are read and texts written.  No program is
started from here, so a grammar file that needs a report is answered as if the program that writes
reports were not installed.
-/

open EditableGrammar EditableGrammar.CommandLine

/-- What reading a file gives. -/
def readContent (path : String) : IO FileContent := do
  try
    return .ok (← IO.FS.readBinFile path)
  catch
    | .permissionDenied .. => return .error .permissionDenied
    | _ => return .error .notFound

/-- The program with its arguments; the result is the code it ends with. -/
def main (args : List String) : IO UInt32 := do
  let mut contents : List (String × FileContent) := []
  for path in filesOf (Request.ofArguments args) do
    contents := (path, ← readContent path) :: contents
  let known := contents
  let searchPath := (← IO.getEnv "PATH").getD ""
  let host : Host :=
    { read := fun path => (known.lookup path).getD (.error .notFound)
      runTool := fun directories _ => .missing (directories.getD searchPath) }
  let outcome := run host (← IO.monoNanosNow) args
  IO.print outcome.output
  IO.eprint outcome.complaint
  return UInt32.ofNat outcome.code
