import ScopedRewriting.Source.Reader

/-!
# Reading by recursive descent

A group is read by reading its elements, which may be groups in turn. The bracket that closes a
group is read as if it was an element, and is an error anywhere else. This is how forms are usually
read; a reader that holds the open groups itself needs no recursion for them.
-/

namespace ScopedRewriting

namespace Form

/-- What can be read at a place: a form, or the end of the group around it. -/
inductive Item where
  | form (f : Form)
  | close

/-- Reads the word behind a quote. -/
def quotedWord : List Token → Except ReadError Form × List Token
  | [] => (.error .expectedWord, [])
  | .space :: tokens => quotedWord tokens
  | .word w :: tokens => (.ok (.quoted w), tokens)
  | .unclosedComment :: tokens => (.error .unclosedComment, tokens)
  | _ :: tokens => (.error .expectedWord, tokens)

/-- Reads the next item; the answer is `none` if there are only spaces left. The elements of a group
are read by `elements`. -/
def item (elements : List Token → Option (Except ReadError (List Form) × List Token)) :
    List Token → Option (Except ReadError (Option Item) × List Token)
  | [] => some (.ok none, [])
  | .space :: tokens => item elements tokens
  | .word w :: tokens => some (.ok (some (.form (.word w))), tokens)
  | .quote :: tokens =>
      match quotedWord tokens with
      | (.error e, rest) => some (.error e, rest)
      | (.ok f, rest) => some (.ok (some (.form f)), rest)
  | .openBracket :: tokens => do
      match ← elements tokens with
      | (.error e, rest) => return (.error e, rest)
      | (.ok fs, rest) => return (.ok (some (.form (.group fs))), rest)
  | .closeBracket :: tokens => some (.ok (some .close), tokens)
  | .closeParen :: tokens => some (.error .unmatchedParen, tokens)
  | .unclosedComment :: tokens => some (.error .unclosedComment, tokens)

/-- Reads elements up to the end of a group, behind those that it has already, the last one first.
No more than `n` items are read on end or inside of one another. -/
def elements : (n : Nat) → List Form → List Token →
    Option (Except ReadError (List Form) × List Token)
  | 0, _, _ => none
  | n + 1, before, tokens => do
      match ← item (elements n []) tokens with
      | (.error e, rest) => return (.error e, rest)
      | (.ok none, rest) => return (.error .unclosedBracket, rest)
      | (.ok (some .close), rest) => return (.ok before.reverse, rest)
      | (.ok (some (.form f)), rest) => elements n (f :: before) rest

/-- Reads the next form; there are no more items than tokens. -/
def descend (tokens : List Token) : Option (Except ReadError (Option Form) × List Token) := do
  match ← item (elements tokens.length []) tokens with
  | (.error e, rest) => return (.error e, rest)
  | (.ok none, rest) => return (.ok none, rest)
  | (.ok (some .close), rest) => return (.error .unmatchedBracket, rest)
  | (.ok (some (.form f)), rest) => return (.ok (some f), rest)

end Form

end ScopedRewriting
