import SureCode.CommandLine.Report

/-!
# The program

Reads the files that the command line names, and writes the report on them.
-/

open SureCode.CommandLine

/-- What is behind a path. -/
def lookUp (path : String) : IO FileContent := do
  match ← (IO.FS.Handle.mk path .read).toBaseIO with
  | .error _ => return .missing
  | .ok handle =>
    match ← handle.readToEnd.toBaseIO with
    | .error _ => return .unreadable
    | .ok text => return .text text

def main (args : List String) : IO UInt32 := do
  let paths := ((Command.ofArguments? args).map Command.paths).getD []
  let files ← paths.mapM fun path => do return (path, ← lookUp path)
  let r := report (fun path => (files.lookup path).getD .missing) args
  IO.print r.output
  for message in r.messages do
    IO.eprintln message
  return UInt32.ofNat r.exitCode
