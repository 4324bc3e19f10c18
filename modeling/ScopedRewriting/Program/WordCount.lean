import ScopedRewriting.Program.Run

/-!
# Counting the words of a program
-/

namespace ScopedRewriting

def countWord (word : String) : List (String × Nat) → List (String × Nat)
  | [] => [(word, 1)]
  | (w, n) :: counts => if w == word then (w, n + 1) :: counts else (w, n) :: countWord word counts

def Form.wordCounts (f : Form) : List (String × Nat) :=
  f.words.foldl (fun counts word => countWord word counts) []

/-- The lines that tell the number of occurrences of each word. -/
def wordCountLines (f : Form) : List String :=
  f.wordCounts.map fun (word, n) => toString n ++ "\t" ++ word

/-- Counts the words of the file that the first argument names. -/
def runWordCount (args : List String) (find : String → Except FileError Node)
    (input : ByteArray) : Outcome :=
  match args with
  | [] => ⟨2, "", "usage: wordcount FILE\n"⟩
  | path :: _ =>
      match (find path).map (Node.bytes input) with
      | .error e => ⟨1, "", "Error: " ++ e.description ++ "\n"⟩
      | .ok bytes =>
          match String.fromUTF8? bytes with
          | none => ⟨1, "", "Error: " ++ notTextDescription ++ "\n"⟩
          | some text =>
              match Form.parse text with
              | .error e => ⟨0, "", path ++ ": " ++ e.message ++ "\n"⟩
              | .ok f => ⟨0, String.join ((wordCountLines f).map (· ++ "\n")), ""⟩

end ScopedRewriting
