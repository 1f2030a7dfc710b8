import IntegerProgramming.CommandLine.Program

/-! # The entry point

    Hands the arguments to the program, lets it read files, and prints what it
    answers. -/

namespace IntegerProgramming.CommandLine

/-- Why reading a file of the file system failed. -/
def FileFault.ofError : IO.Error → FileFault
  | .noFileOrDirectory .. => .missing
  | .inappropriateType .. => .isDirectory
  | e => .other e.toString

/-- Reads a file of the file system. -/
def readFile (path : String) : IO (Except FileFault String) := do
  try
    return .ok (← IO.FS.readFile path)
  catch e =>
    return .error (.ofError e)

end IntegerProgramming.CommandLine

open IntegerProgramming.CommandLine in
def main (args : List String) : IO UInt32 := do
  let output ← run readFile args
  IO.print output.stdout
  IO.eprint output.stderr
  return output.code.toUInt32
