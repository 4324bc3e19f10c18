import ScopedRewriting.Program.Stage
import ScopedRewriting.Term.Tree

/-!
# Command line options

The arguments are read from left to right, and the first thing that is wrong with them ends the
reading. A value may stand in an argument of its own, in which case it does not begin with a dash,
unless it is a single dash. Such values and the names of files stay pending until the next option is
read or the arguments end: only then they are looked at. An argument that says no option, or a value
for an option that takes none, is refused before that.
-/

namespace ScopedRewriting

/-- How many files are processed at a time. -/
inductive Workers where
  /-- As many as the machine suggests. -/
  | auto
  | count (n : Nat)
deriving DecidableEq, Inhabited

structure Options where
  tree : Bool := false
  /-- The first stage that is not performed. -/
  omit? : Option Stage := none
  /-- Files are processed side by side if this is given. -/
  workers? : Option Workers := none
  files : List String := []
deriving DecidableEq, Inhabited

inductive UsageIssue where
  | helpWanted
  | versionWanted
  | unknownOption
  | needlessValue
  | repeatedOption
  | missingValue
  | badValue
  | emptyFileName
  | missingFile
deriving DecidableEq, Inhabited

namespace Options

def omits (o : Options) (stage : Stage) : Bool :=
  match o.omit? with
  | none => false
  | some first => first.omits stage

def render (o : Options) (t : Term) : String :=
  if o.tree then t.tree else t.text ++ "\n"

/-- What was read but is still to be looked at. -/
inductive Pending where
  | nothing
  | files (names : List String)
  /-- The option that asks for a stage, and its value if that was read already. -/
  | stage (value? : Option String)
  /-- The option for the number of workers, and its value if that was read already. -/
  | workers (value? : Option String)

structure Draft where
  options : Options := {}
  pending : Pending := .nothing
  filesOnly : Bool := false

namespace Draft

/-- The value of a numeral below two to the power of 64, which may have a plus sign. -/
def numeral? (text : String) : Option Nat :=
  let digits := match text.toList with
    | '+' :: cs => cs
    | cs => cs
  if digits.isEmpty || !digits.all Char.isDigit then none
  else
    let n := digits.foldl (fun n c => 10 * n + (c.toNat - '0'.toNat)) 0
    if n < UInt64.size then some n else none

def setFiles (d : Draft) (names : List String) : Except UsageIssue Draft :=
  if names.any String.isEmpty then .error .emptyFileName
  else .ok { d with options := { d.options with files := d.options.files ++ names } }

def setStage (d : Draft) : (value? : Option String) → Except UsageIssue Draft
  | none => .error .missingValue
  | some value =>
      if d.options.omit?.isSome then .error .repeatedOption
      else
        match Stage.ofName? value with
        | none => .error .badValue
        | some stage => .ok { d with options := { d.options with omit? := some stage } }

/-- Without a value, the number of workers is up to the machine. -/
def setWorkers (d : Draft) (value? : Option String) : Except UsageIssue Draft :=
  if d.options.workers?.isSome then .error .repeatedOption
  else
    let set (w : Workers) : Draft := { d with options := { d.options with workers? := some w } }
    match value? with
    | none => .ok (set .auto)
    | some value =>
        match numeral? value with
        | none => .error .badValue
        | some n => .ok (set (.count n))

def setTree (d : Draft) : Except UsageIssue Draft :=
  if d.options.tree then .error .repeatedOption
  else .ok { d with options := { d.options with tree := true } }

def settle (d : Draft) : Except UsageIssue Draft :=
  let rest := { d with pending := .nothing }
  match d.pending with
  | .nothing => .ok rest
  | .files names => rest.setFiles names
  | .stage value? => rest.setStage value?
  | .workers value? => rest.setWorkers value?

/-- Files that stand side by side are looked at together. -/
def addFile (d : Draft) (name : String) : Except UsageIssue Draft :=
  match d.pending with
  | .files names => .ok { d with pending := .files (names ++ [name]) }
  | _ => do return { ← d.settle with pending := .files [name] }

/-- Reads an option with a long name; `value?` is what stands behind the equals sign, if any. -/
def readLong (d : Draft) (name : String) (value? : Option String) : Except UsageIssue Draft :=
  if name == "omit" then do
    let d ← d.settle
    if value?.isSome then d.setStage value? else return { d with pending := .stage none }
  else if name == "jobs" then do
    let d ← d.settle
    if value?.isSome then d.setWorkers value? else return { d with pending := .workers none }
  else if name == "tree" || name == "help" || name == "version" then
    if value?.isSome then .error .needlessValue
    else do
      let d ← d.settle
      if name == "help" then .error .helpWanted
      else if name == "version" then .error .versionWanted
      else d.setTree
  else .error .unknownOption

/-- Reads an option with a short name; all that stands behind the name is its value. -/
def readShort (d : Draft) (name : Char) (value : List Char) : Except UsageIssue Draft :=
  if name == 'j' then do
    let d ← d.settle
    match value with
    | [] => return { d with pending := .workers none }
    | '=' :: value => d.setWorkers (some (String.ofList value))
    | value => d.setWorkers (some (String.ofList value))
  else if name == 'h' then do
    let _ ← d.settle
    .error .helpWanted
  else if name == 'V' then do
    let _ ← d.settle
    .error .versionWanted
  else .error .unknownOption

/-- Reads an argument that is not an option: a value that an option waits for, or a file. -/
def readPlain (d : Draft) (arg : String) : Except UsageIssue Draft :=
  match d.pending with
  | .stage none => .ok { d with pending := .stage (some arg) }
  | .workers none => .ok { d with pending := .workers (some arg) }
  | _ => d.addFile arg

def feed (d : Draft) (arg : String) : Except UsageIssue Draft :=
  if d.filesOnly then d.addFile arg
  else
    match arg.toList with
    | ['-', '-'] => .ok { d with filesOnly := true }
    | '-' :: '-' :: cs =>
        let value? := match cs.dropWhile (· != '=') with
          | [] => none
          | _ :: value => some (String.ofList value)
        d.readLong (String.ofList (cs.takeWhile (· != '='))) value?
    | '-' :: c :: cs => d.readShort c cs
    | _ => d.readPlain arg

def finish (d : Draft) : Except UsageIssue Options := do
  let d ← d.settle
  if d.options.files.isEmpty then .error .missingFile else .ok d.options

end Draft

def ofArguments (args : List String) : Except UsageIssue Options := do
  (← args.foldlM Draft.feed {}).finish

end Options

end ScopedRewriting
