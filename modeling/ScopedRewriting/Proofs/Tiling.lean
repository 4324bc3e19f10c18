import ScopedRewriting.Proofs.Lexing

/-!
# Lexemes tile the text

The spans of the lexemes cover the text without gaps, byte by byte, and each lexeme is cut as the
text around it demands (`lexemes_tile`).
-/

namespace ScopedRewriting

variable {l : Lexeme} {ls : List Lexeme} {rest : List Char} {i j : Nat}

namespace Lexeme

theorem byteSize_pos (h : l.chars ≠ []) : 0 < l.byteSize := by
  cases hl : l.chars with
  | nil => exact absurd hl h
  | cons c cs =>
      rw [byteSize, hl, byteSize_cons]
      exact Nat.add_pos_left c.utf8Size_pos _

theorem join_cons (l : Lexeme) (ls : List Lexeme) :
    join (l :: ls) = String.ofList l.chars ++ join ls := by
  rw [join, List.flatMap_cons, String.ofList_append, join]

theorem join_scan (text : String) : join (scan text.toList) = text := by
  rw [join, flatMap_scan, String.ofList_toList]

theorem tiles_spans (start : Nat) (h : ∀ l ∈ ls, l.chars ≠ []) :
    Tiles start (start + (join ls).utf8ByteSize) ((spans start ls).map Prod.snd) := by
  induction ls generalizing start with
  | nil => exact .nil start
  | cons l ls ih =>
      obtain ⟨hl, hls⟩ := List.forall_mem_cons.mp h
      have htiles := ih (start + l.byteSize) hls
      rw [Nat.add_assoc] at htiles
      rw [join_cons, String.utf8ByteSize_append]
      exact .cons (Nat.lt_add_of_pos_right (byteSize_pos hl)) htiles

theorem extract_append_append (s t u : String) :
    (s ++ t ++ u).toUTF8.extract s.utf8ByteSize (s.utf8ByteSize + t.utf8ByteSize) = t.toUTF8 := by
  have hmiddle : (s.toByteArray ++ t.toByteArray).extract s.utf8ByteSize
      (s.utf8ByteSize + t.utf8ByteSize) = t.toByteArray :=
    ByteArray.extract_append_eq_right rfl rfl
  rw [String.toUTF8_eq_toByteArray, String.toByteArray_append, String.toByteArray_append,
    ByteArray.extract_append, hmiddle]
  simp

/-- The bytes of a span are those of its lexeme, whatever text there is in front. -/
theorem extract_of_mem_spans (front : String) (h : (l, i, j) ∈ spans front.utf8ByteSize ls) :
    (front ++ join ls).toUTF8.extract i j = (String.ofList l.chars).toUTF8 := by
  induction ls generalizing front with
  | nil => cases h
  | cons k ls ih =>
      rw [join_cons, ← String.append_assoc]
      rcases List.mem_cons.mp h with heq | h
      · cases heq
        exact extract_append_append _ _ _
      · exact ih _ (by rwa [String.utf8ByteSize_append])

/-- Where a comment begins, counting parentheses finds its end. -/
theorem Fits.passComments (h : l.Fits rest) (hl : l.chars.head? = some '(') :
    passComments 1 1 (l.chars.tail ++ rest) = some (l.token == .space, l.byteSize) := by
  have hsize (body : List Char) :
      (String.ofList ('(' :: body)).utf8ByteSize = 1 + (String.ofList body).utf8ByteSize :=
    byteSize_cons '(' body
  cases h with
  | blanks hrun => exact absurd hl (hrun.head?_ne rfl)
  | word hrun => exact absurd hl (hrun.head?_ne rfl)
  | comment hbody =>
      rw [byteSize, hsize, List.tail_cons, passComments_eq, hbody.splitComment_append]
      rfl
  | unclosed hbody hrest =>
      rw [byteSize, hsize, List.tail_cons, hrest, List.append_nil, passComments_eq, hbody]
      rfl
  | punctuation _ hne => exact absurd (Option.some.inj hl) hne

end Lexeme

/-- The lexemes of a text cover it from its begin to its end. Words and blanks are maximal runs,
comments are the shortest balanced pieces of what is left of the text, and a comment is unclosed if
and only if there is no such piece. Counting in bytes from one parenthesis to the next finds the
same ends. -/
theorem lexemes_tile (text : String) :
    Tiles 0 text.utf8ByteSize ((Lexeme.spans 0 (Lexeme.scan text.toList)).map Prod.snd) ∧
    (∀ l i j, (l, i, j) ∈ Lexeme.spans 0 (Lexeme.scan text.toList) →
      text.toUTF8.extract i j = (String.ofList l.chars).toUTF8) ∧
    Lexeme.join (Lexeme.scan text.toList) = text ∧
    ∀ before l after, Lexeme.scan text.toList = before ++ l :: after →
      l.WellCut (before.flatMap Lexeme.chars) (after.flatMap Lexeme.chars) ∧
      (l.token = .unclosedComment → after = []) ∧
      (l.chars.head? = some '(' →
        passComments 1 1 (l.chars.tail ++ after.flatMap Lexeme.chars) =
          some (l.token == .space, l.byteSize)) := by
  have hjoin := Lexeme.join_scan text
  refine ⟨?_, fun l i j hl => ?_, hjoin, fun before l after h => ?_⟩
  · have hne : ∀ l ∈ Lexeme.scan text.toList, l.chars ≠ [] := by
      intro l hl
      obtain ⟨before, after, h⟩ := List.append_of_mem hl
      exact (Lexeme.fits_of_scan h).chars_ne_nil
    have htiles := Lexeme.tiles_spans 0 hne
    rwa [hjoin, Nat.zero_add] at htiles
  · have hbytes := Lexeme.extract_of_mem_spans "" hl
    rwa [hjoin, String.empty_append] at hbytes
  · exact ⟨Lexeme.wellCut_of_scan h, Lexeme.eq_nil_of_unclosed h,
      (Lexeme.fits_of_scan h).passComments⟩

/-- `λ` takes two bytes. -/
theorem lexemes_tile_nested :
    let before : List Lexeme := [⟨.word "f", ['f']⟩]
    let comment : Lexeme := ⟨.space, ['(', 'λ', '(', 'b', ')', ')']⟩
    let after : List Lexeme :=
      [⟨.space, ['\t']⟩, ⟨.openBracket, ['[']⟩, ⟨.unclosedComment, ['(', 'y']⟩]
    Lexeme.scan "f(λ(b))\t[(y".toList = before ++ comment :: after ∧
    ShortestBalanced comment.chars "(λ(b))\t[(y".toList ∧
    passComments 1 1 "λ(b))\t[(y".toList = some (true, 7) := by
  intro before comment after
  have hscan : Lexeme.scan "f(λ(b))\t[(y".toList = before ++ comment :: after := by
    simp [Lexeme.scan, Lexeme.first, isBlank, isWordChar, isPunctuation, quoteMark, splitComment,
      Token.ofPunctuation, before, comment, after]
  obtain ⟨hcut, -, hpass⟩ := (lexemes_tile _).2.2.2 _ _ _ hscan
  exact ⟨hscan, hcut.comment rfl rfl, hpass rfl⟩

end ScopedRewriting
