import ScopedRewriting.Engine.Part
import ScopedRewriting.Engine.Pool
import ScopedRewriting.Program.Process

/-!
# Running the program on files

Files are processed one after the other, or side by side on a common engine. Either way the
results are printed in the order of the files, up to the first file that fails.
-/

namespace ScopedRewriting

structure Outcome where
  exitCode : Nat
  stdout : String
  stderr : String
deriving DecidableEq, Inhabited

def Outcome.success (stdout : String) : Outcome := ⟨0, stdout, ""⟩

/-- A failure comes behind the results printed before it. -/
def Outcome.failure (stdout : String) (f : Failure) : Outcome :=
  ⟨1, stdout, "Error: " ++ f.description ++ "\n"⟩

/-- A program source that yields the text to print, or fails. -/
abbrev SourceJob := Job (Except Failure String)

/-- Runs jobs one after the other until one fails. -/
def runInTurn (printed : String) : List SourceJob → Engine → Option Outcome
  | [], _ => some (.success printed)
  | j :: jobs, engine =>
      match j.run engine with
      | (none, _) => none
      | (some (.error f), _) => some (.failure printed f)
      | (some (.ok text), engine) => runInTurn (printed ++ text) jobs engine

/-- Prints results until one is a failure. -/
def printResults (printed : String) : List (Option (Except Failure String)) → Option Outcome
  | [] => some (.success printed)
  | none :: _ => none
  | some (.error f) :: _ => some (.failure printed f)
  | some (.ok text) :: results => printResults (printed ++ text) results

def runTogether (schedule : Nat → Nat) (jobs : List SourceJob) (engine : Engine) :
    Option Outcome :=
  printResults "" (Pool.run schedule 0 jobs engine).1

/-- Serves the given number of waiting jobs round and round. -/
def Workers.schedule : Workers → Nat → Nat
  | .auto, n => n
  | .count 0, n => n
  | .count (k + 1), n => n % (k + 1)

def runFiles (π : Policy) (fuel : Nat) (o : Options) (files : List (String × Contents)) :
    Option Outcome :=
  let jobs := files.map fun (path, contents) => Part.whole (processFile π fuel o path contents)
  match o.workers? with
  | none => runInTurn "" jobs {}
  | some w => runTogether w.schedule jobs {}

/-- Reads the files in their order. -/
def readFiles {m : Type → Type} [Monad m] (access : FileAccess m) (paths : List String) :
    m (List (String × Contents)) :=
  paths.mapM fun path => return (path, ← access.read path)

/-- The contents of the files in their order. The first path that leads to the standard input gets
all of it; there is nothing left for another one. -/
def fetch (find : String → Except FileError Node) (input : ByteArray) (paths : List String) :
    List (String × Contents) :=
  ((readFiles (.finding find) paths).run input).1

def versionText : String := "meso 0.1.0\n"

def usageText : String := "Usage: meso [OPTIONS] <FILE>...\n"

def UsageIssue.outcome : UsageIssue → Outcome
  | .versionWanted => .success versionText
  | .helpWanted => .success ("Evaluate Metasulfate programs\n\n" ++ usageText)
  | _ => ⟨2, "", usageText⟩

/-- The program, as a function of its arguments and of how files are read. -/
def runProgram {m : Type → Type} [Monad m] (π : Policy) (fuel : Nat) (args : List String)
    (access : FileAccess m) : m (Option Outcome) :=
  match Options.ofArguments args with
  | .error issue => return some issue.outcome
  | .ok o => return runFiles π fuel o (← readFiles access o.files)

end ScopedRewriting
