import ScopedRewriting.Source.Token

/-!
# Forms

A form is what a text says before names are shared: words, quoted words and bracket groups. Groups
are kept as they were written, those of a single element included.
-/

namespace ScopedRewriting

inductive Form where
  | word (text : String)
  | quoted (text : String)
  | group (forms : List Form)
deriving Inhabited

/-- Texts in brackets, a blank between any two. -/
def bracketed (texts : List String) : String :=
  "[" ++ " ".intercalate texts ++ "]"

namespace Form

mutual
def text : Form → String
  | .word w => w
  | .quoted w => "'" ++ w
  | .group fs => bracketed (texts fs)

def texts : List Form → List String
  | [] => []
  | f :: fs => f.text :: texts fs
end

mutual
/-- The tokens that spell the form. -/
def tokens : Form → List Token
  | .word w => [.word w]
  | .quoted w => [.quote, .word w]
  | .group fs => .openBracket :: (tokensAll fs ++ [.closeBracket])

def tokensAll : List Form → List Token
  | [] => []
  | f :: fs => f.tokens ++ tokensAll fs
end

mutual
/-- The words of the form from left to right, quoted ones under their own name. -/
def words : Form → List String
  | .word w => [w]
  | .quoted w => [w]
  | .group fs => wordsAll fs

def wordsAll : List Form → List String
  | [] => []
  | f :: fs => f.words ++ wordsAll fs
end

theorem texts_eq_map (fs : List Form) : texts fs = fs.map text := by
  induction fs with
  | nil => rfl
  | cons f fs ih => simp [texts, ih]

theorem tokensAll_eq_flatMap (fs : List Form) : tokensAll fs = fs.flatMap tokens := by
  induction fs with
  | nil => rfl
  | cons f fs ih => simp [tokensAll, ih]

theorem wordsAll_eq_flatMap (fs : List Form) : wordsAll fs = fs.flatMap words := by
  induction fs with
  | nil => rfl
  | cons f fs ih => simp [wordsAll, ih]

/-- A form with one hole. -/
inductive Context where
  | hole
  | group (before : List Form) (inner : Context) (after : List Form)

namespace Context

def fill (f : Form) : Context → Form
  | .hole => f
  | .group before inner after => .group (before ++ inner.fill f :: after)

/-- The tokens in front of the hole. -/
def opening : Context → List Token
  | .hole => []
  | .group before inner _ => .openBracket :: (tokensAll before ++ inner.opening)

/-- The tokens behind the hole. -/
def closing : Context → List Token
  | .hole => []
  | .group _ inner after => inner.closing ++ (tokensAll after ++ [.closeBracket])

theorem tokens_fill (f : Form) (c : Context) :
    (c.fill f).tokens = c.opening ++ f.tokens ++ c.closing := by
  induction c with
  | hole => simp [fill, opening, closing]
  | group before inner after ih =>
      simp [fill, opening, closing, tokens, tokensAll_eq_flatMap, ih]

end Context

end Form

end ScopedRewriting
