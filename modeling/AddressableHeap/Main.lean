import AddressableHeap.CommandLine.Report

/-!
# The demonstration program

Runs a command line, prints what it has to print, and ends with its code.
-/

/-- Run the program. -/
def main (words : List String) : IO UInt32 := do
  let exit := AddressableHeap.CommandLine.run words
  let out ← IO.getStdout
  let err ← IO.getStderr
  for line in exit.output do
    out.putStrLn line
  for line in exit.errors do
    err.putStrLn line
  return exit.code.toUInt32
