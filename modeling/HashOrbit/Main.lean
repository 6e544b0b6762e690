import HashOrbit.Program

/-!
# The executable

Reads the filter of the records from the environment, runs the program, and
writes what it leaves behind.
-/

open HashOrbit in
def main (args : List String) : IO UInt32 := do
  let filter := Filter.ofDirective (← IO.getEnv "RUST_LOG")
  let outcome := runProgram filter args
  for record in outcome.records do
    IO.eprintln record.line
  IO.print outcome.stdout
  unless outcome.stderr.isEmpty do
    IO.eprintln outcome.stderr
  return outcome.exitCode.toUInt32
