/-!
# Reading files
-/

namespace ScopedRewriting

inductive FileError where
  | notFound
  | isDirectory
  /-- Something on the way to the file is a file itself. -/
  | notDirectory
  | nameTooLong
  | other (description : String)
deriving DecidableEq, Inhabited

def FileError.description : FileError → String
  | .notFound => "Os \x7b code: 2, kind: NotFound, message: \"No such file or directory\" \x7d"
  | .isDirectory => "Os \x7b code: 21, kind: IsADirectory, message: \"Is a directory\" \x7d"
  | .notDirectory => "Os \x7b code: 20, kind: NotADirectory, message: \"Not a directory\" \x7d"
  | .nameTooLong => "Os \x7b code: 36, kind: InvalidFilename, message: \"File name too long\" \x7d"
  | .other description => description

def notTextDescription : String :=
  "Error \x7b kind: InvalidData, message: \"stream did not contain valid UTF-8\" \x7d"

abbrev Contents := Except FileError ByteArray

/-- Whether a part of a path leads to where the parts before it lead. -/
def isIdlePart (part : String) : Bool :=
  part.isEmpty || part == "."

/-- Whether a path asks for the standard input: a single dash, idle parts behind it apart. -/
def isInputPath (path : String) : Bool :=
  match path.splitOn "/" with
  | part :: parts => part == "-" && parts.all isIdlePart
  | [] => false

/-- What a path leads to, directories apart. -/
inductive Node where
  | file (bytes : ByteArray)
  /-- The standard input, which can be read only once. -/
  | input

/-- What is read there if the given bytes are on the standard input. -/
def Node.bytes (input : ByteArray) : Node → ByteArray
  | .file bytes => bytes
  | .input => input

/-- How files are read: the standard input, and what a path leads to. -/
structure FileAccess (m : Type → Type) where
  input : m Contents
  file (path : String) : m Contents

namespace FileAccess

def read {m : Type → Type} (access : FileAccess m) (path : String) : m Contents :=
  if isInputPath path then access.input else access.file path

/-- Takes all that is left of the standard input. -/
def takeInput : StateM ByteArray Contents := do
  let bytes ← get
  set ByteArray.empty
  return .ok bytes

/-- Files are where `find` says; what is left of the standard input is the state. -/
def finding (find : String → Except FileError Node) : FileAccess (StateM ByteArray) where
  input := takeInput
  file path :=
    match find path with
    | .error e => return .error e
    | .ok (.file bytes) => return .ok bytes
    | .ok .input => takeInput

end FileAccess

end ScopedRewriting
