import ScopedRewriting.Program.Run

/-!
# The command line program
-/

open ScopedRewriting

def fileError (e : IO.Error) : FileError :=
  match e with
  | .noFileOrDirectory .. => .notFound
  | .inappropriateType _ 21 _ => .isDirectory
  | .inappropriateType .. => .notDirectory
  | .invalidArgument _ 36 _ => .nameTooLong
  | e => .other (toString e)

def readContents (path : String) : IO Contents := do
  try
    return .ok (← IO.FS.readBinFile path)
  catch e =>
    return .error (fileError e)

/-- Once read, the standard input is empty. -/
def systemAccess : FileAccess IO where
  input := return .ok (← (← IO.getStdin).readBinToEnd)
  file := readContents

def report : Option Outcome → IO UInt32
  | none => do
      IO.eprintln "Error: out of steps"
      return 70
  | some o => do
      IO.print o.stdout
      IO.eprint o.stderr
      return o.exitCode.toUInt32

def main (args : List String) : IO UInt32 := do
  report (← runProgram .standard ample args systemAccess)
