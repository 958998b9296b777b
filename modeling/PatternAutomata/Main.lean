import PatternAutomata.CommandLine

/-!
# The program

Runs the command line on the arguments of the process.
-/

def main (args : List String) : IO UInt32 := do
  let result := PatternAutomata.CommandLine.run args
  (← IO.getStdout).putStr result.stdout
  (← IO.getStderr).putStr result.stderr
  return result.code
