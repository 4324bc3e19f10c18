import ScopedRewriting.Source.Reader

/-!
# The grammar of forms

A form is spelled by its tokens (`Form.tokens`). A scan that only counts the open groups finds the
first token at which a list of significant tokens ceases to spell a form.
-/

namespace ScopedRewriting

/-- Whether a text can stand as a word. -/
def IsWord (text : String) : Prop :=
  text.toList ≠ [] ∧ ∀ c ∈ text.toList, isWordChar c = true

/-- Whether all words of a form can stand as words. -/
def Form.Spellable (f : Form) : Prop :=
  ∀ w ∈ f.words, IsWord w

/-- What is wrong with tokens behind a complete form. -/
def faultBehind : List Token → Option ReadError
  | [] => none
  | .unclosedComment :: _ => some .unclosedComment
  | .closeParen :: _ => some .unmatchedParen
  | _ :: _ => some .trailingTokens

/-- What is wrong first with the tokens of a form, of which `depth` groups are open already. -/
def firstFault : (depth : Nat) → List Token → Option ReadError
  | 0, [] => some .expectedTerm
  | _ + 1, [] => some .unclosedBracket
  | 0, .word _ :: tokens => faultBehind tokens
  | depth + 1, .word _ :: tokens => firstFault (depth + 1) tokens
  | 0, .quote :: .word _ :: tokens => faultBehind tokens
  | depth + 1, .quote :: .word _ :: tokens => firstFault (depth + 1) tokens
  | _, .quote :: .unclosedComment :: _ => some .unclosedComment
  | _, .quote :: _ => some .expectedWord
  | depth, .openBracket :: tokens => firstFault (depth + 1) tokens
  | 0, .closeBracket :: _ => some .unmatchedBracket
  | 1, .closeBracket :: tokens => faultBehind tokens
  | depth + 2, .closeBracket :: tokens => firstFault (depth + 1) tokens
  | _, .closeParen :: _ => some .unmatchedParen
  | _, .unclosedComment :: _ => some .unclosedComment
  | depth, .space :: tokens => firstFault depth tokens

end ScopedRewriting
