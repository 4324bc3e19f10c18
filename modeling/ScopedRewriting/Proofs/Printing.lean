import ScopedRewriting.Proofs.Lexing
import ScopedRewriting.Proofs.Reading
import ScopedRewriting.Term.Subterm

/-!
# Printed text is read back

A printed form is read as that form (`Form.parse_text`), as long as its words can stand as words,
which holds of every form that was read (`printed_form_read_back`). A printed term is read as a form
that says the term (`Term.parse_text`), unless a sequence of one element occurs in it.
-/

namespace ScopedRewriting

open Token

/-! ## Printed forms -/

namespace Form

theorem spellable_group_iff {fs : List Form} : (group fs).Spellable ↔ ∀ f ∈ fs, f.Spellable := by
  simp only [Spellable, words, wordsAll_eq_flatMap, List.mem_flatMap]
  constructor
  · exact fun h f hf w hw => h w ⟨f, hf, hw⟩
  · rintro h w ⟨f, hf, hw⟩
    exact h f hf w hw

mutual
/-- The text of a form has the tokens that spell the form, whatever comes behind it. -/
theorem ofChars_text : (f : Form) → f.Spellable → (rest : List Char) → EndsWord rest →
    ofChars (f.text.toList ++ rest) = f.tokens ++ ofChars rest
  | .word w, h, _, hrest => ofChars_word (h w (by simp [words])) hrest
  | .quoted w, h, rest, hrest => by
      have hw := ofChars_word (h w (by simp [words])) hrest
      rw [text, tokens, String.toList_append, List.append_assoc]
      refine (ofChars_punctuation (c := quoteMark) rfl (by decide) _).trans ?_
      exact congrArg (Token.quote :: ·) hw
  | .group fs, h, rest, _ => by
      have hend : EndsWord (']' :: rest) := endsWord_punctuation rfl rest
      have hfs := ofChars_texts fs (spellable_group_iff.mp h) (']' :: rest) hend
      rw [text, bracketed, tokens]
      simp only [String.toList_append, List.append_assoc]
      refine (ofChars_punctuation (c := '[') rfl (by decide) _).trans ?_
      refine congrArg (Token.openBracket :: ·) ?_
      refine hfs.trans ?_
      rw [ofChars_punctuation (c := ']') rfl (by decide), List.append_eq, List.append_assoc]
      rfl

theorem ofChars_texts : (fs : List Form) → (∀ f ∈ fs, f.Spellable) → (rest : List Char) →
    EndsWord rest →
    ofChars ((" ".intercalate (texts fs)).toList ++ rest) = tokensAll fs ++ ofChars rest
  | [], _, _, _ => by simp [texts, tokensAll]
  | [f], h, rest, hrest => by
      simpa [texts, tokensAll] using ofChars_text f (h f (by simp)) rest hrest
  | f :: g :: fs, h, rest, hrest => by
      have hend (cs : List Char) : EndsWord (' ' :: cs) := endsWord_blank rfl cs
      have hfs := ofChars_texts (g :: fs) (fun f hf => h f (by simp [hf])) rest hrest
      simp only [texts] at hfs
      rw [texts, texts, String.intercalate_cons_cons, tokensAll, List.append_assoc, ← hfs]
      simp only [String.toList_append, List.append_assoc]
      refine (ofChars_text f (h f (by simp)) _ (hend _)).trans ?_
      exact congrArg (f.tokens ++ ·) (ofChars_blank rfl _)
end

theorem parse_text {f : Form} (h : f.Spellable) : parse f.text = .ok f := by
  rw [parse_eq_ok_iff, significant_eq]
  simpa [ofChars_nil] using ofChars_text f h [] (by simp [EndsWord])

theorem parse_text_line {f : Form} (h : f.Spellable) : parse (f.text ++ "\n") = .ok f := by
  rw [parse_eq_ok_iff, significant_eq, String.toList_append]
  refine (ofChars_text f h ['\n'] (endsWord_blank rfl [])).trans ?_
  rw [ofChars_blank rfl, ofChars_nil, List.append_nil]

end Form

/-! ## What is read -/

theorem Lexeme.isWord_of_mem_scan {cs : List Char} {l : Lexeme} (hl : l ∈ scan cs) {w : String}
    (hw : l.token = .word w) : IsWord w := by
  fun_induction scan cs with
  | case1 => cases hl
  | case2 c cs ih =>
      rcases List.mem_cons.mp hl with rfl | hl
      · unfold first at hw
        split at hw
        · cases hw
        · split at hw
          · next hc =>
              cases hw
              simp only [IsWord, String.toList_ofList]
              exact ⟨by simp, List.forall_mem_cons.mpr ⟨hc, List.all_eq_true.mp List.all_takeWhile⟩⟩
          · split at hw
            · split at hw <;> cases hw
            · grind [Token.ofPunctuation]
      · exact ih hl

namespace Form

mutual
theorem word_mem_tokens {w : String} : (f : Form) → w ∈ f.words → Token.word w ∈ f.tokens
  | .word _, h => by simpa [words, tokens] using h
  | .quoted _, h => by simpa [words, tokens] using h
  | .group fs, h => by
      have hfs := word_mem_tokensAll fs h
      simp [tokens, hfs]

theorem word_mem_tokensAll {w : String} : (fs : List Form) → w ∈ wordsAll fs →
    Token.word w ∈ tokensAll fs
  | [], h => by cases h
  | f :: fs, h => by
      rw [wordsAll, List.mem_append] at h
      rw [tokensAll, List.mem_append]
      exact h.imp (word_mem_tokens f) (word_mem_tokensAll fs)
end

theorem spellable_of_parse {text : String} {f : Form} (h : parse text = .ok f) : f.Spellable := by
  intro w hw
  have hm := word_mem_tokens f hw
  rw [← parse_eq_ok_iff.mp h, significant, Token.scan] at hm
  obtain ⟨l, hl, hlw⟩ := List.mem_map.mp (List.mem_filter.mp hm).1
  exact Lexeme.isWord_of_mem_scan hl hlw

end Form

/-- The forms that are read back from their texts are those whose words can stand as words. All
forms that are read from any text are among them. -/
theorem printed_form_read_back (f : Form) :
    (Form.parse f.text = .ok f ↔ f.Spellable) ∧
    ∀ text, Form.parse text = .ok f → f.Spellable ∧ Form.parse f.text = .ok f := by
  refine ⟨⟨Form.spellable_of_parse, Form.parse_text⟩, fun text h => ?_⟩
  have hf : f.Spellable := Form.spellable_of_parse h
  exact ⟨hf, Form.parse_text hf⟩

/-- What was said with a comment and a line break is printed on one line and read back, the group of
a single element included. -/
theorem printed_form_read_back_single : ∃ f : Form,
    Form.parse "[f (a (b)) [[x] ]\n'ξ[]]" = .ok f ∧ f.text = "[f [[x]] 'ξ []]" ∧
    Form.parse "[f [[x]] 'ξ []]" = .ok f := by
  let f : Form := .group [.word "f", .group [.group [.word "x"]], .quoted "ξ", .group []]
  have hparse : Form.parse "[f (a (b)) [[x] ]\n'ξ[]]" = .ok f := by
    rw [Form.parse_eq_ok_iff]
    decide +kernel
  have htext : f.text = "[f [[x]] 'ξ []]" := by decide +kernel
  exact ⟨f, hparse, htext, htext ▸ ((printed_form_read_back f).2 _ hparse).2⟩

/-! ## Printed terms -/

/-- The form that is printed for the atom. -/
def Atom.toForm (a : Atom) : Form :=
  match a.unmarked? with
  | none => .word a.name
  | some v => .quoted v.name

theorem Atom.text_toForm (a : Atom) : a.toForm.text = a.name := by
  unfold toForm
  split
  · rfl
  · next v hv =>
      rw [unmarked?_eq_some_iff.mp hv]
      rfl

theorem Atom.ofForm_toForm (a : Atom) : Term.ofForm a.toForm = .atom a := by
  unfold toForm
  split
  · rfl
  · next v hv =>
      rw [unmarked?_eq_some_iff.mp hv]
      rfl

/-- A word does not begin with the mark of variables. -/
theorem IsWord.unmarked? {w : String} (h : IsWord w) : (Atom.mk w).unmarked? = none := by
  cases hv : (Atom.mk w).unmarked? with
  | none => rfl
  | some v =>
      have hw : w.toList = quoteMark :: v.name.toList := by
        have heq := congrArg Atom.name (Atom.unmarked?_eq_some_iff.mp hv)
        rw [show w = "'" ++ v.name from heq, String.toList_append]
        rfl
      have hquote : isWordChar quoteMark = true := h.2 _ (by simp [hw])
      cases hquote

namespace Term

mutual
def toForm : Term → Form
  | .atom a => a.toForm
  | .seq ts => .group (toForms ts)

def toForms : List Term → List Form
  | [] => []
  | t :: ts => t.toForm :: toForms ts
end

theorem toForms_eq_map (ts : List Term) : toForms ts = ts.map toForm := by
  induction ts with
  | nil => rfl
  | cons t ts ih => simp [toForms, ih]

theorem text_toForm (t : Term) : t.toForm.text = t.text := by
  induction t using induct with
  | atom a => exact a.text_toForm
  | seq ts ih =>
      rw [toForm, Form.text, text, toForms_eq_map, Form.texts_eq_map, texts_eq_map, List.map_map]
      exact congrArg bracketed (List.map_congr_left ih)

theorem ofForm_toForm {t : Term} (h : t.Collapsed) : ofForm t.toForm = t := by
  induction t using induct with
  | atom a => exact a.ofForm_toForm
  | seq ts ih =>
      obtain ⟨hlen, hts⟩ := collapsed_seq_iff.mp h
      have hsame : (ts.map toForm).map ofForm = ts := by
        rw [List.map_map]
        exact (List.map_congr_left fun t ht => ih t ht (hts t ht)).trans (List.map_id ts)
      rw [toForm, ofForm, toForms_eq_map, ofForms_eq_map, hsame, group_eq_seq hlen]

/-- The names of all atoms can stand as words, apart from their marks. -/
def Spellable (t : Term) : Prop :=
  ∀ a ∈ t.atoms, a.toForm.Spellable

theorem Spellable.toForm {t : Term} (h : t.Spellable) : t.toForm.Spellable := by
  induction t using induct with
  | atom a => exact h a (by simp [atoms])
  | seq ts ih =>
      rw [Term.toForm, toForms_eq_map, Form.spellable_group_iff, List.forall_mem_map]
      refine fun t ht => ih t ht fun a ha => h a ?_
      rw [atoms, atomsAll_eq_flatMap]
      exact List.mem_flatMap.mpr ⟨t, ht, ha⟩

theorem parse_text {t : Term} (h : t.Spellable) : Form.parse t.text = .ok t.toForm := by
  rw [← t.text_toForm]
  exact Form.parse_text h.toForm

theorem parse_text_line {t : Term} (h : t.Spellable) :
    Form.parse (t.text ++ "\n") = .ok t.toForm := by
  rw [← t.text_toForm]
  exact Form.parse_text_line h.toForm

theorem atoms_group (ts : List Term) : (group ts).atoms = ts.flatMap atoms := by
  unfold group
  split
  · simp
  · rw [atoms, atomsAll_eq_flatMap]

mutual
theorem spellable_ofForm : (f : Form) → f.Spellable → (ofForm f).Spellable
  | .word w, h => by
      have hw : IsWord w := h w (by simp [Form.words])
      simpa [Spellable, ofForm, atoms, Atom.toForm, hw.unmarked?] using h
  | .quoted w, h => by simpa [Spellable, ofForm, atoms, Atom.toForm] using h
  | .group fs, h => by
      intro a ha
      rw [ofForm, atoms_group] at ha
      obtain ⟨t, ht, ha⟩ := List.mem_flatMap.mp ha
      exact spellable_ofForms fs (Form.spellable_group_iff.mp h) t ht a ha

theorem spellable_ofForms : (fs : List Form) → (∀ f ∈ fs, f.Spellable) →
    ∀ t ∈ ofForms fs, t.Spellable
  | [], _ => by simp [ofForms]
  | f :: fs, h => by
      rw [ofForms]
      exact List.forall_mem_cons.mpr ⟨spellable_ofForm f (h f (by simp)),
        spellable_ofForms fs fun g hg => h g (by simp [hg])⟩
end

end Term

end ScopedRewriting
