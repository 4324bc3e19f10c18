import ScopedRewriting.Proofs.Comments
import ScopedRewriting.Source.Grammar

/-!
# Lexemes one after the other

A lexeme fits to the text behind it if this does not go on with the lexeme (`Lexeme.Fits`). A scan
finds the lexemes that fit and no others (`Lexeme.scan_eq_cons_iff`), so they are cut as they have
to be (`Lexeme.wellCut_of_scan`), and each has its token whatever else is scanned behind it.
-/

namespace ScopedRewriting

variable {p : Char → Bool} {c : Char} {cs run rest : List Char} {l : Lexeme}
  {before after ls : List Lexeme}

/-! ## Runs of characters -/

namespace MaximalRun

theorem span {front : List Char} (h : MaximalRun p front (c :: run) rest) :
    p c ∧ (run ++ rest).takeWhile p = run ∧ (run ++ rest).dropWhile p = rest := by
  obtain ⟨hc, hrun⟩ := List.forall_mem_cons.mp h.all
  rw [List.takeWhile_append_of_pos hrun, List.dropWhile_append_of_pos hrun]
  cases rest with
  | nil => simp [hc]
  | cons d rest => simp [hc, h.behind d rfl]

theorem of_takeWhile (hc : p c) (cs : List Char) :
    MaximalRun p [] (c :: cs.takeWhile p) (cs.dropWhile p) where
  ne_nil := List.cons_ne_nil _ _
  all := List.forall_mem_cons.mpr ⟨hc, List.all_eq_true.mp List.all_takeWhile⟩
  front := by simp
  behind := by
    intro d hd
    have h := List.head?_dropWhile_not p cs
    rwa [Option.mem_def.mp hd] at h

theorem of_front {front : List Char} (h : MaximalRun p [] run rest)
    (hfront : ∀ c ∈ front.getLast?, p c = false) : MaximalRun p front run rest :=
  ⟨h.ne_nil, h.all, hfront, h.behind⟩

theorem of_mem_head? (h : MaximalRun p [] run rest) : ∀ c ∈ run.head?, p c :=
  fun c hc => h.all c (List.mem_of_head? hc)

theorem head?_ne (h : MaximalRun p [] run rest) (hc : p c = false) : run.head? ≠ some c := by
  intro hhead
  simp [h.of_mem_head? c hhead] at hc

end MaximalRun

theorem isWordChar_of_isBlank (hc : isBlank c) : isWordChar c = false := by
  simp [isWordChar, hc]

theorem isBlank_of_isWordChar (hc : isWordChar c) : isBlank c = false := by
  simp_all [isWordChar]

theorem isBlank_of_isPunctuation (hc : isPunctuation c) : isBlank c = false := by
  simp only [isPunctuation, quoteMark, Bool.or_eq_true, beq_iff_eq] at hc
  rcases hc with (((rfl | rfl) | rfl) | rfl) | rfl <;> rfl

theorem isWordChar_of_isPunctuation (hc : isPunctuation c) : isWordChar c = false := by
  simp [isWordChar, hc]

/-! ## Scans -/

namespace Lexeme

/-- The lexeme can stand in front of the text, which does not go on with it. -/
inductive Fits (rest : List Char) : Lexeme → Prop
  | blanks {run : List Char} : MaximalRun isBlank [] run rest → Fits rest ⟨.space, run⟩
  | word {run : List Char} : MaximalRun isWordChar [] run rest →
      Fits rest ⟨.word (String.ofList run), run⟩
  | comment {body : List Char} : ClosesComment 0 body → Fits rest ⟨.space, '(' :: body⟩
  | unclosed {body : List Char} : splitComment 0 body = none → rest = [] →
      Fits rest ⟨.unclosedComment, '(' :: body⟩
  | punctuation {c : Char} : isPunctuation c → c ≠ '(' → Fits rest ⟨.ofPunctuation c, [c]⟩

theorem fits_first (c : Char) (cs : List Char) : (first c cs).1.Fits (first c cs).2 := by
  unfold first
  split
  · next hc => exact .blanks (.of_takeWhile hc cs)
  · next hblank =>
      split
      · next hc => exact .word (.of_takeWhile hc cs)
      · next hword =>
          split
          · next hc =>
              cases beq_iff_eq.mp hc
              split
              · next h => exact .comment (closesComment_of_splitComment h)
              · next h => exact .unclosed h rfl
          · next hc =>
              refine .punctuation ?_ (by simpa using hc)
              simpa [isWordChar, hblank] using hword

theorem Fits.first (h : l.Fits rest) (hl : l.chars = c :: cs) :
    Lexeme.first c (cs ++ rest) = (l, rest) := by
  cases h with
  | blanks hrun =>
      cases hl
      obtain ⟨hc, htake, hdrop⟩ := hrun.span
      simp [Lexeme.first, hc, htake, hdrop]
  | word hrun =>
      cases hl
      obtain ⟨hc, htake, hdrop⟩ := hrun.span
      simp [Lexeme.first, isBlank_of_isWordChar hc, hc, htake, hdrop]
  | comment hbody =>
      cases hl
      rw [Lexeme.first, hbody.splitComment_append rest]
      rfl
  | unclosed hbody hrest =>
      cases hl
      rw [hrest, List.append_nil, Lexeme.first, hbody]
      rfl
  | punctuation hc hne =>
      cases hl
      simp [Lexeme.first, isBlank_of_isPunctuation hc, isWordChar_of_isPunctuation hc, hne]

theorem Fits.chars_ne_nil (h : l.Fits rest) : l.chars ≠ [] := by
  cases h with
  | blanks hrun => exact hrun.ne_nil
  | word hrun => exact hrun.ne_nil
  | _ => exact List.cons_ne_nil _ _

theorem Fits.scan_append (h : l.Fits rest) : scan (l.chars ++ rest) = l :: scan rest := by
  cases hl : l.chars with
  | nil => exact absurd hl h.chars_ne_nil
  | cons c cs => rw [List.cons_append, scan, h.first hl]

theorem scan_eq_cons_iff :
    scan cs = l :: ls ↔ ∃ rest, cs = l.chars ++ rest ∧ l.Fits rest ∧ scan rest = ls := by
  constructor
  · intro h
    cases cs with
    | nil => simp [scan] at h
    | cons c cs =>
        rw [scan] at h
        cases h
        exact ⟨_, (first_append c cs).symm, fits_first c cs, rfl⟩
  · rintro ⟨rest, rfl, h, rfl⟩
    exact h.scan_append

/-- A part of the scan at its end is the scan of a part of the text. -/
theorem scan_behind (h : scan cs = before ++ after) : scan (after.flatMap chars) = after := by
  induction before generalizing cs with
  | nil => rw [← List.nil_append after, ← h, flatMap_scan, h]
  | cons l before ih =>
      obtain ⟨rest, _, _, hrest⟩ := scan_eq_cons_iff.mp h
      exact ih hrest

theorem fits_of_scan (h : scan cs = before ++ l :: after) : l.Fits (after.flatMap chars) := by
  obtain ⟨rest, heq, hfits, _⟩ := scan_eq_cons_iff.mp (scan_behind h)
  rw [List.flatMap_cons] at heq
  rwa [List.append_cancel_left heq]

/-! ## Neighbours -/

/-- A run of blanks or of word characters goes over the end of no lexeme. -/
theorem Fits.ends (h : l.Fits rest) (hp : p = isBlank ∨ p = isWordChar)
    (hc : c ∈ l.chars.getLast?) (hpc : p c) : ∀ d ∈ rest.head?, p d = false := by
  have hpunct {c : Char} (hc : isPunctuation c) : p c = false := by
    rcases hp with rfl | rfl
    · exact isBlank_of_isPunctuation hc
    · exact isWordChar_of_isPunctuation hc
  cases h with
  | @blanks run hrun =>
      have hblank := hrun.all c (List.mem_of_getLast? hc)
      rcases hp with rfl | rfl
      · exact hrun.behind
      · simp [isWordChar_of_isBlank hblank] at hpc
  | @word run hrun =>
      have hword := hrun.all c (List.mem_of_getLast? hc)
      rcases hp with rfl | rfl
      · simp [isBlank_of_isWordChar hword] at hpc
      · exact hrun.behind
  | @comment body hbody =>
      have hlast : ('(' :: body).getLast? = some ')' := by
        simp [List.getLast?_cons, hbody.getLast?]
      cases hlast.symm.trans hc
      simp [hpunct (c := ')') rfl] at hpc
  | unclosed _ hrest => simp [hrest]
  | punctuation hd _ =>
      cases Option.some.inj hc
      simp [hpunct hd] at hpc

theorem front_of_scan (h : scan cs = before ++ l :: after) (hp : p = isBlank ∨ p = isWordChar)
    (hl : ∀ c ∈ l.chars.head?, p c) : ∀ c ∈ (before.flatMap chars).getLast?, p c = false := by
  rcases List.eq_nil_or_concat before with rfl | ⟨before, k, rfl⟩
  · simp
  · have hl' : l.Fits (after.flatMap chars) := fits_of_scan h
    rw [List.concat_eq_append, List.append_assoc] at h
    have hk : k.Fits ((l :: after).flatMap chars) := fits_of_scan h
    intro c hc
    rw [List.concat_eq_append, List.flatMap_append, List.flatMap_singleton,
      List.getLast?_append_of_ne_nil _ hk.chars_ne_nil] at hc
    refine Bool.eq_false_iff.mpr fun hpc => ?_
    cases hd : l.chars with
    | nil => exact absurd hd hl'.chars_ne_nil
    | cons d ds =>
        have hfalse := hk.ends hp hc hpc d (by simp [hd])
        simp [hl d (by simp [hd])] at hfalse

/-! ## How lexemes are cut -/

theorem text?_ofPunctuation (hc : isPunctuation c) (hne : c ≠ '(') :
    (Token.ofPunctuation c).text? = some (String.ofList [c]) := by
  simp only [isPunctuation, Bool.or_eq_true, beq_iff_eq] at hc
  rcases hc with (((rfl | rfl) | rfl) | rfl) | rfl
  · rfl
  · rfl
  · exact absurd rfl hne
  · rfl
  · rfl

theorem Fits.wellCut {front back : List Char} (h : l.Fits back)
    (hfront : ∀ p, p = isBlank ∨ p = isWordChar → (∀ c ∈ l.chars.head?, p c) →
      ∀ c ∈ front.getLast?, p c = false) : l.WellCut front back := by
  cases h with
  | blanks hrun =>
      have hparen := hrun.head?_ne (c := '(') rfl
      exact {
        written := fun h => absurd rfl h
        word := nofun
        blanks := fun _ _ => hrun.of_front (hfront _ (.inl rfl) hrun.of_mem_head?)
        comment := fun _ h => absurd h hparen
        unclosed := ⟨nofun, fun h => absurd h.1 hparen⟩ }
  | word hrun =>
      have hparen := hrun.head?_ne (c := '(') rfl
      exact {
        written := fun _ _ h => Option.some.inj h ▸ String.toList_ofList
        word := fun _ _ => hrun.of_front (hfront _ (.inr rfl) hrun.of_mem_head?)
        blanks := nofun
        comment := nofun
        unclosed := ⟨nofun, fun h => absurd h.1 hparen⟩ }
  | comment hbody =>
      have hshort := hbody.shortestBalanced back
      exact {
        written := fun h => absurd rfl h
        word := nofun
        blanks := fun _ h => absurd rfl h
        comment := fun _ _ => hshort
        unclosed := ⟨nofun, fun h => absurd hshort.balanced (h.2 _ hshort.initial hshort.ne_nil)⟩ }
  | @unclosed body hbody hrest =>
      have hnone (cs : List Char) (hcs : cs <+: '(' :: body) (hne : cs ≠ []) : ¬ Balanced cs :=
        not_balanced_of_splitComment hbody hcs hne
      exact {
        written := fun _ => nofun
        word := nofun
        blanks := nofun
        comment := nofun
        unclosed := ⟨fun _ => ⟨rfl, by simpa [hrest] using hnone⟩, fun _ => rfl⟩ }
  | @punctuation c hc hne =>
      obtain ⟨hspace, hunclosed, hword⟩ : Token.ofPunctuation c ≠ .space ∧
          Token.ofPunctuation c ≠ .unclosedComment ∧ ∀ w, Token.ofPunctuation c ≠ .word w := by
        grind [Token.ofPunctuation]
      exact {
        written := fun _ text h => by
          rw [text?_ofPunctuation hc hne] at h
          exact Option.some.inj h ▸ String.toList_ofList
        word := fun w h => absurd h (hword w)
        blanks := fun h => absurd h hspace
        comment := fun h => absurd h hspace
        unclosed := ⟨fun h => absurd h hunclosed, fun h => absurd (Option.some.inj h.1) hne⟩ }

theorem wellCut_of_scan (h : scan cs = before ++ l :: after) :
    l.WellCut (before.flatMap chars) (after.flatMap chars) :=
  (fits_of_scan h).wellCut fun _ hp hl => front_of_scan h hp hl

/-- A comment that never ends reaches to the end of the text. -/
theorem eq_nil_of_unclosed (h : scan cs = before ++ l :: after) (hl : l.token = .unclosedComment) :
    after = [] := by
  have hend : after.flatMap chars = [] := by
    cases fits_of_scan h with
    | unclosed _ hrest => exact hrest
    | punctuation _ _ => grind [Token.ofPunctuation]
    | _ => cases hl
  rw [List.append_cons] at h
  rw [← scan_behind h, hend, scan]

end Lexeme

/-! ## Significant tokens -/

namespace Token

def ofChars (cs : List Char) : List Token :=
  ((Lexeme.scan cs).map Lexeme.token).filter (· != .space)

theorem significant_eq (text : String) : significant text = ofChars text.toList := rfl

theorem ofChars_nil : ofChars [] = [] := by
  simp [ofChars, Lexeme.scan]

theorem ofChars_append (h : l.Fits rest) :
    ofChars (l.chars ++ rest) = Lexeme.significant [l] ++ ofChars rest := by
  rw [ofChars, h.scan_append, List.map_cons, List.filter_cons]
  by_cases hl : l.token != .space <;> simp [Lexeme.significant, ofChars, hl]

theorem ofChars_dropWhile (cs : List Char) : ofChars (cs.dropWhile isBlank) = ofChars cs := by
  cases cs with
  | nil => rfl
  | cons c cs =>
      by_cases hc : isBlank c
      · have hrun := ofChars_append (.blanks (.of_takeWhile hc cs))
        simpa [hc, Lexeme.significant] using hrun.symm
      · simp [hc]

theorem ofChars_blank (hc : isBlank c) (cs : List Char) : ofChars (c :: cs) = ofChars cs := by
  rw [← ofChars_dropWhile, List.dropWhile_cons_of_pos hc, ofChars_dropWhile]

theorem ofChars_blanks (h : ∀ c ∈ run, isBlank c) (rest : List Char) :
    ofChars (run ++ rest) = ofChars rest := by
  induction run with
  | nil => rfl
  | cons c run ih =>
      obtain ⟨hc, hrun⟩ := List.forall_mem_cons.mp h
      rw [List.cons_append, ofChars_blank hc, ih hrun]

theorem ofChars_punctuation (hc : isPunctuation c) (hne : c ≠ '(') (cs : List Char) :
    ofChars (c :: cs) = .ofPunctuation c :: ofChars cs := by
  have htoken : ofPunctuation c ≠ .space := by grind [ofPunctuation]
  have hfits : Lexeme.Fits cs ⟨.ofPunctuation c, [c]⟩ := .punctuation hc hne
  simpa [Lexeme.significant, htoken] using ofChars_append hfits

/-- A word in front of the text would not go on in the text. -/
def EndsWord (cs : List Char) : Prop :=
  ∀ c ∈ cs.head?, isWordChar c = false

theorem endsWord_blank (hc : isBlank c) (cs : List Char) : EndsWord (c :: cs) := by
  rintro d ⟨⟩
  exact isWordChar_of_isBlank hc

theorem endsWord_punctuation (hc : isPunctuation c) (cs : List Char) : EndsWord (c :: cs) := by
  rintro d ⟨⟩
  exact isWordChar_of_isPunctuation hc

theorem ofChars_word {w : String} (hw : IsWord w) (hrest : EndsWord rest) :
    ofChars (w.toList ++ rest) = .word w :: ofChars rest := by
  have hrun : MaximalRun isWordChar [] w.toList rest := ⟨hw.1, hw.2, by simp, hrest⟩
  simpa [Lexeme.significant] using ofChars_append (.word hrun)

end Token

end ScopedRewriting
