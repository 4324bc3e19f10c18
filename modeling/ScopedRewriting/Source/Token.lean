/-!
# Tokens of program texts

A text consists of words, brackets, quotes, closing parentheses and space. Space is a run of
blanks or a complete comment; a comment that never ends is a token of its own.
-/

namespace ScopedRewriting

/-- The character that marks the word behind it as a pattern variable. -/
def quoteMark : Char := '\x27'

/-- Blanks are the space, tab, carriage return, line feed and form feed. -/
def isBlank (c : Char) : Bool :=
  c == ' ' || c == '\t' || c == '\r' || c == '\n' || c == '\x0c'

/-- The characters that are tokens of their own or delimit comments. -/
def isPunctuation (c : Char) : Bool :=
  c == '[' || c == ']' || c == '(' || c == ')' || c == quoteMark

/-- Every character that is neither blank nor punctuation may stand in a word. -/
def isWordChar (c : Char) : Bool :=
  !isBlank c && !isPunctuation c

inductive Token where
  | openBracket
  | closeBracket
  | quote
  /-- A closing parenthesis outside of any comment. -/
  | closeParen
  | word (text : String)
  /-- A run of blanks, or one complete comment. -/
  | space
  /-- A comment that lacks its closing parenthesis. -/
  | unclosedComment
deriving DecidableEq, Inhabited

/-- The written form of a token; space is written as one blank, an unclosed comment not at all. -/
def Token.text? : Token → Option String
  | .openBracket => some "["
  | .closeBracket => some "]"
  | .quote => some "'"
  | .closeParen => some ")"
  | .word text => some text
  | .space => some " "
  | .unclosedComment => none

/-- A token together with the piece of text that it was read from. -/
structure Lexeme where
  token : Token
  chars : List Char
deriving DecidableEq, Inhabited

def Lexeme.byteSize (l : Lexeme) : Nat :=
  (String.ofList l.chars).utf8ByteSize

end ScopedRewriting
