import Mathlib.Data.List.DropRight
import ScopedRewriting.Proofs.Lexing
import ScopedRewriting.Proofs.Vocabulary

/-!
# Layout does not matter

Blanks and comments may be put between any two lexemes, or in the place of others, and any form may
be put into brackets of its own: what is read is the same (`layout_irrelevant`).
-/

namespace ScopedRewriting

open Token

variable {cs gap rest : List Char} {l : Lexeme} {before slice after ls : List Lexeme}

/-! ## Pieces of texts -/

/-- What satisfies `p` can be cut off at both ends of a list. -/
theorem exists_trim {α : Type} (p : α → Bool) (as : List α) : ∃ lead middle trail,
    as = lead ++ middle ++ trail ∧ (∀ a ∈ lead, p a) ∧ (∀ a ∈ trail, p a) ∧
    (∀ a ∈ middle.head?, p a = false) ∧ ∀ a ∈ middle.getLast?, p a = false := by
  have hback : (as.dropWhile p).rdropWhile p ++ (as.dropWhile p).rtakeWhile p = as.dropWhile p :=
    List.rdropWhile_append_rtakeWhile ..
  refine ⟨as.takeWhile p, (as.dropWhile p).rdropWhile p, (as.dropWhile p).rtakeWhile p, ?_,
    List.all_eq_true.mp List.all_takeWhile, fun _ => List.mem_rtakeWhile_imp, fun a ha => ?_,
    fun a ha => ?_⟩
  · rw [List.append_assoc, hback, List.takeWhile_append_dropWhile]
  · have hhead := List.head?_dropWhile_not p as
    have hd : (as.dropWhile p).head? = some a := by
      rw [← hback, List.head?_append, Option.mem_def.mp ha, Option.some_or]
    rwa [hd] at hhead
  · obtain ⟨hne, rfl⟩ := List.mem_getLast?_eq_getLast ha
    simpa using List.rdropWhile_last_not p _ hne

theorem Token.EndsWord.replace {ds : List Char} (h : EndsWord (cs ++ ds)) (hrest : EndsWord rest) :
    EndsWord (cs ++ rest) := by
  cases cs with
  | nil => exact hrest
  | cons c cs => exact h

namespace Lexeme

theorem significant_append (ls ls' : List Lexeme) :
    significant (ls ++ ls') = significant ls ++ significant ls' := by
  simp [significant]

theorem significant_spaces (h : ∀ l ∈ ls, l.token = .space) : significant ls = [] := by
  simpa [significant] using h

theorem significant_scan (text : String) :
    significant (scan text.toList) = Token.significant text :=
  rfl

/-- What is significant of a lexeme does not change with the text behind it, unless that goes on
with a word. -/
theorem Fits.ofChars_append {ds : List Char} (h : l.Fits ds) (hclosed : l.token ≠ .unclosedComment)
    (hends : EndsWord ds → EndsWord rest) :
    ofChars (l.chars ++ rest) = significant [l] ++ ofChars rest := by
  cases h with
  | blanks hrun => exact ofChars_blanks hrun.all rest
  | word hrun =>
      exact Token.ofChars_append (.word ⟨hrun.ne_nil, hrun.all, hrun.front, hends hrun.behind⟩)
  | comment hbody => exact Token.ofChars_append (.comment hbody)
  | unclosed _ _ => exact absurd rfl hclosed
  | punctuation hc hne => exact Token.ofChars_append (.punctuation hc hne)

theorem closed_of_scan (h : scan cs = before ++ after) (hne : after ≠ []) :
    ∀ l ∈ before, l.token ≠ .unclosedComment := by
  intro l hl hunclosed
  obtain ⟨ls, ls', rfl⟩ := List.append_of_mem hl
  rw [List.append_assoc] at h
  have hnil : ls' ++ after = [] := eq_nil_of_unclosed h hunclosed
  exact hne (List.append_eq_nil_iff.mp hnil).2

/-- So the first lexemes of a text keep their tokens in front of any other text. -/
theorem ofChars_append_of_scan (h : scan cs = before ++ after)
    (hclosed : ∀ l ∈ before, l.token ≠ .unclosedComment) (hrest : EndsWord rest) :
    ofChars (before.flatMap chars ++ rest) = significant before ++ ofChars rest := by
  induction before generalizing cs with
  | nil => rfl
  | cons l before ih =>
      obtain ⟨hl, hbefore⟩ := List.forall_mem_cons.mp hclosed
      rw [List.cons_append] at h
      obtain ⟨ds, rfl, hfits, hds⟩ := scan_eq_cons_iff.mp h
      have hends (hd : EndsWord ds) : EndsWord (before.flatMap chars ++ rest) := by
        rw [← flatMap_scan ds, hds, List.flatMap_append] at hd
        exact hd.replace hrest
      rw [List.flatMap_cons, List.append_assoc, hfits.ofChars_append hl hends, ih hds hbefore,
        ← List.append_assoc, ← significant_append, List.singleton_append]

theorem ofChars_behind (h : scan cs = before ++ after) :
    ofChars (after.flatMap chars) = significant after := by
  rw [ofChars, scan_behind h, significant]

theorem exists_split {ts us : List Token} (h : significant ls = ts ++ us) :
    ∃ ls₁ ls₂, ls = ls₁ ++ ls₂ ∧ significant ls₁ = ts ∧ significant ls₂ = us := by
  obtain ⟨_, _, hmap, rfl, rfl⟩ := List.filter_eq_append_iff.mp h
  obtain ⟨ls₁, ls₂, rfl, rfl, rfl⟩ := List.map_eq_append_iff.mp hmap
  exact ⟨ls₁, ls₂, rfl, rfl, rfl⟩

end Lexeme

/-! ## Space -/

namespace Spacing

theorem endsWord (h : Spacing gap) (rest : List Char) : EndsWord (gap ++ rest) := by
  induction h generalizing rest with
  | blank hc => exact endsWord_blank hc rest
  | @comment cs hcs _ =>
      intro d hd
      rw [List.head?_append, hcs] at hd
      cases hd
      rfl
  | append _ _ ih _ =>
      rw [List.append_assoc]
      exact ih _

theorem ofChars_append (h : Spacing gap) (rest : List Char) :
    ofChars (gap ++ rest) = ofChars rest := by
  induction h generalizing rest with
  | blank hc => exact ofChars_blank hc rest
  | @comment cs hcs hshort =>
      obtain ⟨body, rfl⟩ := List.head?_eq_some_iff.mp hcs
      exact Token.ofChars_append (.comment hshort.closesComment)
  | append _ _ ih ih' => rw [List.append_assoc, ih, ih']

end Spacing

/-! ## Brackets -/

namespace Form

mutual
theorem unclosed_not_mem_tokens : (f : Form) → Token.unclosedComment ∉ f.tokens
  | .word _ => by simp [tokens]
  | .quoted _ => by simp [tokens]
  | .group fs => by
      have hfs := unclosed_not_mem_tokensAll fs
      simp [tokens, hfs]

theorem unclosed_not_mem_tokensAll : (fs : List Form) → Token.unclosedComment ∉ tokensAll fs
  | [] => by simp [tokensAll]
  | f :: fs => by
      rw [tokensAll, List.mem_append, not_or]
      exact ⟨unclosed_not_mem_tokens f, unclosed_not_mem_tokensAll fs⟩
end

theorem Context.ofForm_fill (c : Context) {f g : Form} (h : Term.ofForm f = Term.ofForm g) :
    Term.ofForm (c.fill f) = Term.ofForm (c.fill g) := by
  induction c with
  | hole => exact h
  | group before inner after ih => simp [fill, Term.ofForm, Term.ofForms_eq_map, ih]

theorem ofForm_bracketed (f : Form) : Term.ofForm (.group [f]) = Term.ofForm f := by
  rw [Term.ofForm, Term.ofForms_eq_map]
  rfl

theorem unclosed_not_mem_scan {text : String} {f : Form} (h : parse text = .ok f) :
    ∀ l ∈ Lexeme.scan text.toList, l.token ≠ .unclosedComment := by
  intro l hl htoken
  refine f.unclosed_not_mem_tokens ?_
  rw [← parse_eq_ok_iff.mp h, Token.significant, Token.scan, ← htoken]
  exact List.mem_filter.mpr ⟨List.mem_map_of_mem hl, by simp [htoken]⟩

theorem Context.exists_slice {text : String} {c : Context} {g : Form}
    (h : parse text = .ok (c.fill g)) : ∃ before slice after,
    Lexeme.scan text.toList = before ++ slice ++ after ∧ c.Slice g before slice after := by
  rw [parse_eq_ok_iff, tokens_fill, ← Lexeme.significant_scan] at h
  obtain ⟨front, after, hscan, hfront, hafter⟩ := Lexeme.exists_split h
  obtain ⟨before, slice, rfl, hbefore, hslice⟩ := Lexeme.exists_split hfront
  obtain ⟨lead, middle, trail, rfl, hlead, htrail, hhead, hlast⟩ :=
    exists_trim (fun l : Lexeme => l.token == .space) slice
  have hlead : Lexeme.significant lead = [] :=
    Lexeme.significant_spaces fun l hl => beq_iff_eq.mp (hlead l hl)
  have htrail : Lexeme.significant trail = [] :=
    Lexeme.significant_spaces fun l hl => beq_iff_eq.mp (htrail l hl)
  refine ⟨before ++ lead, middle, trail ++ after, ?_, ?_, ?_, ?_, ?_, ?_⟩
  · simp [hscan]
  · rw [Lexeme.significant_append, hbefore, hlead, List.append_nil]
  · rwa [Lexeme.significant_append, Lexeme.significant_append, hlead, htrail, List.append_nil]
      at hslice
  · rw [Lexeme.significant_append, htrail, hafter, List.nil_append]
  · exact fun l hl => beq_eq_false_iff_ne.mp (hhead l hl)
  · exact fun l hl => beq_eq_false_iff_ne.mp (hlast l hl)

theorem endsWord_group (fs : List Form) (rest : List Char) :
    EndsWord ((group fs).text.toList ++ rest) := by
  rw [text, bracketed]
  simp only [String.toList_append, List.append_assoc]
  exact endsWord_punctuation rfl _

/-- A form is read in the hole of a context if the tokens around it are those of the context. -/
theorem parse_filled {c : Context} {f : Form} {opening closing : String} (hf : f.Spellable)
    (hopening : Token.significant opening = c.opening)
    (hclosing : Token.significant closing = c.closing)
    (hfront : EndsWord (f.text.toList ++ closing.toList))
    (hback : EndsWord closing.toList) :
    parse (opening ++ f.text ++ closing) = .ok (c.fill f) := by
  have hclosed : ∀ l ∈ Lexeme.scan opening.toList, l.token ≠ .unclosedComment := by
    intro l hl htoken
    have hm : Token.unclosedComment ∈ c.opening := by
      rw [← hopening, Token.significant, Token.scan, ← htoken]
      exact List.mem_filter.mpr ⟨List.mem_map_of_mem hl, by simp [htoken]⟩
    exact (c.fill f).unclosed_not_mem_tokens (by simp [Context.tokens_fill, hm])
  have hscan : Lexeme.scan opening.toList = Lexeme.scan opening.toList ++ [] :=
    (List.append_nil _).symm
  have htext := Lexeme.ofChars_append_of_scan hscan hclosed hfront
  rw [Lexeme.flatMap_scan, ofChars_text f hf _ hback, Lexeme.significant_scan, hopening,
    ← Token.significant_eq, hclosing, ← List.append_assoc] at htext
  rw [parse_eq_ok_iff, Context.tokens_fill, Token.significant_eq]
  simpa using htext

/-- Brackets around the piece of text of a form are brackets around the form. -/
theorem parse_bracketed {text : String} {c : Context} {g : Form} (h : parse text = .ok (c.fill g))
    (hscan : Lexeme.scan text.toList = before ++ slice ++ after)
    (hs : c.Slice g before slice after) :
    parse (Lexeme.join before ++ "[" ++ Lexeme.join slice ++ "]" ++ Lexeme.join after) =
      .ok (c.fill (.group [g])) := by
  rw [List.append_assoc] at hscan
  have hclosed : ∀ l ∈ before ++ (slice ++ after), l.token ≠ .unclosedComment :=
    hscan ▸ unclosed_not_mem_scan h
  have hbehind := Lexeme.scan_behind hscan
  have hslice : ofChars (slice.flatMap Lexeme.chars ++ ']' :: after.flatMap Lexeme.chars) =
      g.tokens ++ .closeBracket :: c.closing := by
    rw [Lexeme.ofChars_append_of_scan hbehind (fun l hl => hclosed l (by simp [hl]))
      (endsWord_punctuation rfl _), ofChars_punctuation rfl (by decide),
      Lexeme.ofChars_behind hbehind, hs.tokens, hs.closing]
    rfl
  have hbefore : ofChars (before.flatMap Lexeme.chars ++
      '[' :: (slice.flatMap Lexeme.chars ++ ']' :: after.flatMap Lexeme.chars)) =
      c.opening ++ .openBracket :: (g.tokens ++ .closeBracket :: c.closing) := by
    rw [Lexeme.ofChars_append_of_scan hscan (fun l hl => hclosed l (by simp [hl]))
      (endsWord_punctuation rfl _), ofChars_punctuation rfl (by decide), hslice, hs.opening]
    rfl
  rw [parse_eq_ok_iff, Context.tokens_fill, significant_eq]
  simpa [Lexeme.join, tokens, tokensAll] using hbefore

end Form

/-- Between lexemes, space may be put in and take the place of other space. -/
theorem Spacing.significant_between {text : String} (hgap : Spacing gap)
    (h : Lexeme.scan text.toList = before ++ (ls ++ after)) (hls : Lexeme.significant ls = [])
    (hne : ls ++ after ≠ []) :
    Token.significant (Lexeme.join before ++ String.ofList gap ++ Lexeme.join after) =
      Token.significant text := by
  have hbehind : Lexeme.scan ((ls ++ after).flatMap Lexeme.chars) = ls ++ after :=
    Lexeme.scan_behind h
  have htext : ofChars (before.flatMap Lexeme.chars ++ (gap ++ after.flatMap Lexeme.chars)) =
      Lexeme.significant before ++ Lexeme.significant after := by
    rw [Lexeme.ofChars_append_of_scan h (Lexeme.closed_of_scan h hne) (hgap.endsWord _),
      hgap.ofChars_append, Lexeme.ofChars_behind hbehind]
  rw [← Lexeme.significant_scan text, h, Lexeme.significant_append, Lexeme.significant_append, hls,
    List.nil_append, ← htext, significant_eq]
  simp [Lexeme.join]

/-- Space of any length may be put between two lexemes or in the place of other space, and a form
may be put into brackets of its own, wherever it stands. What is read and evaluated is the same. -/
theorem layout_irrelevant (text : String) :
    (∀ gap, Spacing gap → ∀ before after,
      (∃ l, Lexeme.scan text.toList = before ++ l :: after ∧ l.token = .space) ∨
        Lexeme.scan text.toList = before ++ after ∧ after ≠ [] →
      Token.significant (Lexeme.join before ++ String.ofList gap ++ Lexeme.join after) =
        Token.significant text) ∧
    ∀ (c : Form.Context) (g : Form), Form.parse text = .ok (c.fill g) →
      (∃ before slice after, Lexeme.scan text.toList = before ++ slice ++ after ∧
        c.Slice g before slice after) ∧
      ∀ before slice after, Lexeme.scan text.toList = before ++ slice ++ after →
        c.Slice g before slice after →
        let text' := Lexeme.join before ++ "[" ++ Lexeme.join slice ++ "]" ++ Lexeme.join after
        (∀ engine : Engine, ∃ t, engine.Reads text t ∧ engine.Reads text' t) ∧
        ∀ π fuel, (evaluateText π fuel text' : Job (Except ReadError Term)) =
          evaluateText π fuel text := by
  refine ⟨fun gap hgap before after h => ?_, fun c g hg =>
    ⟨Form.Context.exists_slice hg, fun before slice after h hs => ?_⟩⟩
  · rcases h with ⟨l, h, hl⟩ | ⟨h, hne⟩
    · have hspace : Lexeme.significant [l] = [] := by simp [Lexeme.significant, hl]
      have hscan : Lexeme.scan text.toList = before ++ ([l] ++ after) := h
      exact hgap.significant_between hscan hspace (by simp)
    · have hscan : Lexeme.scan text.toList = before ++ ([] ++ after) := h
      exact hgap.significant_between hscan rfl hne
  · have hparse := Form.parse_bracketed hg h hs
    have hterm : Term.ofForm (c.fill (.group [g])) = Term.ofForm (c.fill g) :=
      c.ofForm_fill g.ofForm_bracketed
    refine ⟨fun engine => ⟨Term.ofForm (c.fill g), ?_, ?_⟩, fun π fuel => ?_⟩
    · rw [Engine.reads_iff, hg]
      rfl
    · rw [Engine.reads_iff, hparse]
      exact congrArg Except.ok hterm
    · simp only [evaluateText, hparse, hg, Form.share, hterm]

/-- A comment in a directive, and brackets around the body of its rule. -/
theorem layout_irrelevant_directive :
    let c := Form.Context.group [.word "A", .word "->"] .hole [.word "A"]
    let before : List Lexeme := [⟨.openBracket, ['[']⟩, ⟨.word "A", ['A']⟩, ⟨.space, [' ']⟩,
      ⟨.word "->", ['-', '>']⟩]
    let after : List Lexeme := [⟨.space, [' ']⟩, ⟨.word "A", ['A']⟩, ⟨.closeBracket, [']']⟩]
    Spacing "(()) ".toList ∧
    Lexeme.scan "[A -> B A]".toList = before ++ ⟨.space, [' ']⟩ :: ⟨.word "B", ['B']⟩ :: after ∧
    Token.significant "[A ->(()) B A]" = Token.significant "[A -> B A]" ∧
    Form.parse "[A -> B A]" = .ok (c.fill (.word "B")) ∧
    c.Slice (.word "B") (before ++ [⟨.space, [' ']⟩]) [⟨.word "B", ['B']⟩] after ∧
    ∀ engine : Engine, ∃ t, engine.Reads "[A -> B A]" t ∧ engine.Reads "[A -> [B] A]" t := by
  intro c before after
  have hcomment : ClosesComment 0 ['(', ')', ')'] := .opening (.closing .done)
  have hgap : Spacing "(()) ".toList :=
    .append (.comment rfl (hcomment.shortestBalanced [])) (.blank rfl)
  have hscan : Lexeme.scan "[A -> B A]".toList =
      before ++ ⟨.space, [' ']⟩ :: ⟨.word "B", ['B']⟩ :: after := by
    simp [Lexeme.scan, Lexeme.first, isBlank, isWordChar, isPunctuation, quoteMark,
      Token.ofPunctuation, before, after]
  have hparse : Form.parse "[A -> B A]" = .ok (c.fill (.word "B")) := by
    rw [Form.parse_eq_ok_iff, ← Lexeme.significant_scan, hscan]
    rfl
  have hslice : c.Slice (.word "B") (before ++ [⟨.space, [' ']⟩]) [⟨.word "B", ['B']⟩] after :=
    ⟨rfl, rfl, rfl, by simp, by simp⟩
  have hspaced : Lexeme.join before ++ String.ofList "(()) ".toList ++
      Lexeme.join (⟨.word "B", ['B']⟩ :: after) = "[A ->(()) B A]" := by
    simp [Lexeme.join, before, after]
  have hbracketed : Lexeme.join (before ++ [⟨.space, [' ']⟩]) ++ "[" ++
      Lexeme.join [⟨.word "B", ['B']⟩] ++ "]" ++ Lexeme.join after = "[A -> [B] A]" := by
    simp [Lexeme.join, before, after]
  obtain ⟨hspacing, hbrackets⟩ := layout_irrelevant "[A -> B A]"
  have hsignificant := hspacing _ hgap before _ (.inl ⟨_, hscan, rfl⟩)
  have hreads := ((hbrackets c _ hparse).2 _ _ _ hscan hslice).1
  rw [hspaced] at hsignificant
  rw [hbracketed] at hreads
  exact ⟨hgap, hscan, hsignificant, hparse, hslice, hreads⟩

end ScopedRewriting
