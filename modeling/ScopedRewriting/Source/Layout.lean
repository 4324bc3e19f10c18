import ScopedRewriting.Source.Form
import ScopedRewriting.Source.Lexer

/-!
# The layout of texts

What can be said of the pieces of a text without cutting it: where they begin and end, which of them
are runs of characters of a kind, which are comments, and which are nothing but space.
-/

namespace ScopedRewriting

/-- The pieces, given by the offsets of their begin and end, lead from `i` to `k` without gaps, and
none is empty. -/
inductive Tiles : Nat → Nat → List (Nat × Nat) → Prop
  | nil (i : Nat) : Tiles i i []
  | cons {i j k : Nat} {pieces : List (Nat × Nat)} : i < j → Tiles j k pieces →
      Tiles i k ((i, j) :: pieces)

/-- The run consists of characters of a kind, and has no neighbours of this kind. -/
structure MaximalRun (p : Char → Bool) (before run after : List Char) : Prop where
  ne_nil : run ≠ []
  all : ∀ c ∈ run, p c
  front : ∀ c ∈ before.getLast?, p c = false
  behind : ∀ c ∈ after.head?, p c = false

/-- There are as many opening as closing parentheses. -/
def Balanced (cs : List Char) : Prop :=
  cs.count '(' = cs.count ')'

/-- The piece is the shortest one with which the text begins that is balanced and not empty. -/
structure ShortestBalanced (piece text : List Char) : Prop where
  initial : piece <+: text
  ne_nil : piece ≠ []
  balanced : Balanced piece
  shortest : ∀ cs, cs <+: text → cs ≠ [] → Balanced cs → piece.length ≤ cs.length

/-- Blanks and complete comments, at least one of them. -/
inductive Spacing : List Char → Prop
  | blank {c : Char} : isBlank c → Spacing [c]
  | comment {cs : List Char} : cs.head? = some '(' → ShortestBalanced cs cs → Spacing cs
  | append {cs ds : List Char} : Spacing cs → Spacing ds → Spacing (cs ++ ds)

namespace Lexeme

/-- What a lexeme has to be if it is cut out between two pieces of text. -/
structure WellCut (before : List Char) (l : Lexeme) (after : List Char) : Prop where
  written : l.token ≠ .space → ∀ text ∈ l.token.text?, text.toList = l.chars
  word : ∀ w, l.token = .word w → MaximalRun isWordChar before l.chars after
  blanks : l.token = .space → l.chars.head? ≠ some '(' → MaximalRun isBlank before l.chars after
  comment : l.token = .space → l.chars.head? = some '(' →
    ShortestBalanced l.chars (l.chars ++ after)
  unclosed : l.token = .unclosedComment ↔ l.chars.head? = some '(' ∧
    ∀ cs, cs <+: l.chars ++ after → cs ≠ [] → ¬ Balanced cs

/-- The tokens of the lexemes, without space. -/
def significant (ls : List Lexeme) : List Token :=
  (ls.map token).filter (· != .space)

/-- The text that the lexemes are cut from. -/
def join (ls : List Lexeme) : String :=
  String.ofList (ls.flatMap chars)

end Lexeme

/-- The lexemes in the middle are those of the form in the hole of the context, and those around
them belong to the context. -/
structure Form.Context.Slice (c : Context) (f : Form) (before slice after : List Lexeme) :
    Prop where
  opening : Lexeme.significant before = c.opening
  tokens : Lexeme.significant slice = f.tokens
  closing : Lexeme.significant after = c.closing
  head : ∀ l ∈ slice.head?, l.token ≠ .space
  last : ∀ l ∈ slice.getLast?, l.token ≠ .space

end ScopedRewriting
