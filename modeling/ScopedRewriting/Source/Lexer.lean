import ScopedRewriting.Source.Token

/-!
# From text to lexemes

`Lexeme.scan` cuts a text into lexemes. The pieces of text of the lexemes, put together, are the
text that was scanned (`Lexeme.flatMap_scan`).
-/

namespace ScopedRewriting

/-- Cuts the text of a comment, with `depth` further comments open inside it, behind the
parenthesis that closes it. -/
def splitComment : Nat → List Char → Option (List Char × List Char)
  | _, [] => none
  | depth, c :: cs =>
      if c == '(' then
        (splitComment (depth + 1) cs).map fun (body, rest) => (c :: body, rest)
      else if c == ')' then
        match depth with
        | 0 => some ([c], cs)
        | depth + 1 => (splitComment depth cs).map fun (body, rest) => (c :: body, rest)
      else
        (splitComment depth cs).map fun (body, rest) => (c :: body, rest)

theorem splitComment_append {depth : Nat} {cs body rest : List Char}
    (h : splitComment depth cs = some (body, rest)) : body ++ rest = cs := by
  induction cs generalizing depth body with
  | nil => simp [splitComment] at h
  | cons c cs ih =>
      simp only [splitComment] at h
      split at h
      · obtain ⟨⟨b, r⟩, hb, he⟩ := Option.map_eq_some_iff.mp h
        cases he
        simp [ih hb]
      · split at h
        · split at h
          · cases h
            rfl
          · obtain ⟨⟨b, r⟩, hb, he⟩ := Option.map_eq_some_iff.mp h
            cases he
            simp [ih hb]
        · obtain ⟨⟨b, r⟩, hb, he⟩ := Option.map_eq_some_iff.mp h
          cases he
          simp [ih hb]

/-- The token of a punctuation character that opens no comment. -/
def Token.ofPunctuation (c : Char) : Token :=
  if c == '[' then .openBracket
  else if c == ']' then .closeBracket
  else if c == ')' then .closeParen
  else .quote

/-- The first lexeme of the text `c :: cs`, and the text behind it. -/
def Lexeme.first (c : Char) (cs : List Char) : Lexeme × List Char :=
  if isBlank c then
    (⟨.space, c :: cs.takeWhile isBlank⟩, cs.dropWhile isBlank)
  else if isWordChar c then
    let text := c :: cs.takeWhile isWordChar
    (⟨.word (String.ofList text), text⟩, cs.dropWhile isWordChar)
  else if c == '(' then
    match splitComment 0 cs with
    | some (body, rest) => (⟨.space, c :: body⟩, rest)
    | none => (⟨.unclosedComment, c :: cs⟩, [])
  else
    (⟨.ofPunctuation c, [c]⟩, cs)

/-- The first lexeme and the text behind it are the whole text. -/
theorem Lexeme.first_append (c : Char) (cs : List Char) :
    (Lexeme.first c cs).1.chars ++ (Lexeme.first c cs).2 = c :: cs := by
  unfold Lexeme.first
  split
  · simp
  · split
    · simp
    · split
      · split
        · next h => simp [splitComment_append h]
        · simp
      · simp

theorem Lexeme.first_chars_ne_nil (c : Char) (cs : List Char) :
    (Lexeme.first c cs).1.chars ≠ [] := by
  unfold Lexeme.first
  split
  · simp
  · split
    · simp
    · split
      · split <;> simp
      · simp

theorem Lexeme.length_first_lt (c : Char) (cs : List Char) :
    (Lexeme.first c cs).2.length < (c :: cs).length := by
  have h := congrArg List.length (Lexeme.first_append c cs)
  have hpos := List.length_pos_iff.mpr (Lexeme.first_chars_ne_nil c cs)
  rw [List.length_append] at h
  omega

def Lexeme.scan : List Char → List Lexeme
  | [] => []
  | c :: cs => (Lexeme.first c cs).1 :: Lexeme.scan (Lexeme.first c cs).2
termination_by cs => cs.length
decreasing_by exact Lexeme.length_first_lt c cs

/-- The lexemes tile the text. -/
theorem Lexeme.flatMap_scan (cs : List Char) : (Lexeme.scan cs).flatMap Lexeme.chars = cs := by
  fun_induction Lexeme.scan cs with
  | case1 => rfl
  | case2 c cs ih => rw [List.flatMap_cons, ih, Lexeme.first_append]

/-- Pairs every lexeme with the byte offsets of its begin and end, the first one beginning at
`start`. -/
def Lexeme.spans (start : Nat) : List Lexeme → List (Lexeme × Nat × Nat)
  | [] => []
  | l :: ls => (l, start, start + l.byteSize) :: Lexeme.spans (start + l.byteSize) ls

/-- The tokens of a text, space included. -/
def Token.scan (text : String) : List Token :=
  (Lexeme.scan text.toList).map Lexeme.token

/-- The tokens of a text that carry meaning. -/
def Token.significant (text : String) : List Token :=
  (Token.scan text).filter (· != .space)

end ScopedRewriting
