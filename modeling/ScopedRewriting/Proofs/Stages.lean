import ScopedRewriting.Proofs.Processing
import ScopedRewriting.Proofs.Vocabulary

/-!
# Stages one after the other

What is printed after some stage says the same program to the stages that are left. So the stages
may be performed one after the other, each on the text that the one before has printed
(`stages_compose`).
-/

namespace ScopedRewriting

variable {π : Policy} {o o' : Options} {source : ByteArray} {f : Form} {text out : String}

theorem Form.ofSource_toUTF8 (h : Form.parse text = .ok f) :
    Form.ofSource text.toUTF8 = .ok f :=
  ofSource_eq_ok_iff.mpr ⟨text, dif_pos text.isValidUTF8, h⟩

theorem Form.spellable_of_source (h : Form.ofSource source = .ok f) : f.Spellable := by
  obtain ⟨program, _, hf⟩ := ofSource_eq_ok_iff.mp h
  exact Form.spellable_of_parse hf

theorem Options.Prints.unique {out' : String} (h : o.Prints π f out) (h' : o.Prints π f out') :
    out = out' := by
  unfold Prints at h h'
  by_cases hshare : o.omits .share
  · simp_all
  by_cases heval : o.omits .eval
  · simp_all
  · rw [if_neg hshare, if_neg heval] at h h'
    obtain ⟨u, hu, rfl⟩ := h
    obtain ⟨v, hv, rfl⟩ := h'
    rw [hu.unique hv]

theorem Options.Prints.exists_iff {r : Except Failure String} (h : o.Prints π f out) :
    (∃ out', o.Prints π f out' ∧ r = .ok out') ↔ r = .ok out := by
  constructor
  · rintro ⟨_, h', rfl⟩
    rw [h.unique h']
  · exact fun hr => ⟨_, h, hr⟩

/-- What is printed, trees apart, says the same program to all stages that are left. -/
theorem Options.Prints.reread (h : o.Prints π f text) (htree : o.tree = false) (hf : f.Spellable) :
    ∃ g, Form.parse text = .ok g ∧
      ∀ o' : Options, (∀ stage, o.omits stage = false → o'.omits stage = false) →
        ∀ out, o'.Prints π g out ↔ o'.Prints π f out := by
  unfold Prints at h
  by_cases hshare : o.omits .share
  · rw [if_pos hshare] at h
    exact ⟨f, h ▸ Form.parse_text_line hf, fun _ _ _ => .rfl⟩
  rw [if_neg hshare] at h
  simp only [render, htree, Bool.false_eq_true, if_false] at h
  by_cases heval : o.omits .eval
  · rw [if_pos heval] at h
    refine ⟨(Term.ofForm f).toForm, ?_, fun o' ho out => ?_⟩
    · exact h ▸ Term.parse_text_line (Term.spellable_ofForm f hf)
    · have hshare' : o'.omits .share = false := ho .share (by simpa using hshare)
      simp [Prints, hshare', Term.ofForm_toForm (Term.collapsed_ofForm f)]
  · rw [if_neg heval] at h
    obtain ⟨u, hu, rfl⟩ := h
    obtain ⟨hc, hs⟩ := hu.collapsed_spellable hf
    refine ⟨u.toForm, Term.parse_text_line hs, fun o' ho out => ?_⟩
    have hshare' : o'.omits .share = false := ho .share (by simpa using hshare)
    have heval' : o'.omits .eval = false := ho .eval (by simpa using heval)
    -- a normal form has the same normal form as the term that it was found for
    simp [Prints, hshare', heval', Term.ofForm_toForm hc, hu.again_iff]

/-- Stages may be performed on the text that earlier stages have printed: whatever performs these
stages at least prints the same for that text as for the source, or nothing for both. In particular,
the text is printed for itself. -/
theorem stages_compose {engine engine₁ engine₂ : Engine} (h : engine.Filled π)
    (h₁ : engine₁.Filled π) (h₂ : engine₂.Filled π) (htree : o.tree = false)
    (ho : ∀ stage, o.omits stage = false → o'.omits stage = false) (path path₁ path₂ : String)
    (htext : engine.Processes π o path source (.ok text)) :
    ((∃ out, ∀ r, (engine₁.Processes π o' path₁ text.toUTF8 r ↔ r = .ok out) ∧
        (engine₂.Processes π o' path₂ source r ↔ r = .ok out)) ∨
      ∀ r, ¬ engine₁.Processes π o' path₁ text.toUTF8 r ∧
        ¬ engine₂.Processes π o' path₂ source r) ∧
    ∀ r, engine₁.Processes π o path₁ text.toUTF8 r ↔ r = .ok text := by
  cases h.processes_iff.mp htext with
  | @print f _ hsource hprinted =>
      obtain ⟨g, hg, hreread⟩ := hprinted.reread htree (Form.spellable_of_source hsource)
      have hr₁ {o' : Options} {r} :
          engine₁.Processes π o' path₁ text.toUTF8 r ↔ ∃ out, o'.Prints π g out ∧ r = .ok out :=
        h₁.processes_iff.trans (Options.yields_iff_of_ok (Form.ofSource_toUTF8 hg))
      have hr₂ {r} :
          engine₂.Processes π o' path₂ source r ↔ ∃ out, o'.Prints π f out ∧ r = .ok out :=
        h₂.processes_iff.trans (Options.yields_iff_of_ok hsource)
      simp only [hr₁, hr₂, hreread o' ho, hreread o fun _ hs => hs]
      constructor
      · by_cases hout : ∃ out, o'.Prints π f out
        · obtain ⟨out, hout⟩ := hout
          exact .inl ⟨out, fun r => ⟨hout.exists_iff, hout.exists_iff⟩⟩
        · exact .inr fun r => by simp_all
      · exact fun r => hprinted.exists_iff

/-- The groups of one element, and the blanks, are gone when the program is printed. -/
private def groupedProgram : String := "[[f 'x] ->\n  [x [x]] [f [g]]]"

private def sharedTerm : Term :=
  .ofForm (.group [.group [.word "f", .quoted "x"], .word "->", .group [.word "x", .word "x"],
    .group [.word "f", .word "g"]])

theorem stages_compose_shared_first :
    let sharing : Options := { omit? := some .eval }
    Engine.Filled .standard {} ∧ sharing.tree = false ∧
    (∀ stage, sharing.omits stage = false → Options.omits { tree := true } stage = false) ∧
    Engine.Processes .standard {} sharing "a.mso" groupedProgram.toUTF8
      (.ok "[[f 'x] -> [x x] [f g]]\n") ∧
    Engine.Processes .standard {} { tree := true } "-" "[[f 'x] -> [x x] [f g]]\n".toUTF8
      (.ok "┬─ g\n└─ g\n") := by
  intro sharing
  have h : Engine.Filled .standard {} := .fresh
  obtain ⟨f, hf, hterm⟩ : ∃ f, Form.parse groupedProgram = .ok f ∧ Term.ofForm f = sharedTerm := by
    have hread : (Form.parse groupedProgram).map Term.ofForm = .ok sharedTerm := by decide +kernel
    cases hf : Form.parse groupedProgram with
    | error e => simp [hf, Except.map] at hread
    | ok f => exact ⟨f, rfl, by simpa [hf, Except.map] using hread⟩
  have hsource : Form.ofSource groupedProgram.toUTF8 = .ok f := Form.ofSource_toUTF8 hf
  have hshared : "[[f 'x] -> [x x] [f g]]\n" = sharing.render (.ofForm f) := by
    rw [hterm]
    decide +kernel
  have hnormal : NormalForm .standard (.base .standard) (.ofForm f)
      (.seq [.atom ⟨"g"⟩, .atom ⟨"g"⟩]) := by
    rw [hterm]
    exact ⟨8, by decide +kernel⟩
  have htext : Engine.Processes .standard {} sharing "a.mso" groupedProgram.toUTF8
      (.ok "[[f 'x] -> [x x] [f g]]\n") :=
    h.processes_iff.mpr (.print hsource hshared)
  have htree : Engine.Processes .standard {} { tree := true } "a.mso" groupedProgram.toUTF8
      (.ok "┬─ g\n└─ g\n") :=
    h.processes_iff.mpr (.print hsource ⟨_, hnormal, by decide +kernel⟩)
  have ho : ∀ stage, sharing.omits stage = false → Options.omits { tree := true } stage = false :=
    fun _ _ => rfl
  refine ⟨h, rfl, ho, htext, ?_⟩
  rcases (stages_compose h h h rfl ho "a.mso" "-" "a.mso" htext).1 with ⟨out, hout⟩ | hnone
  · have heq := (hout _).2.mp htree
    exact (hout _).1.mpr heq
  · exact absurd htree (hnone _).2

end ScopedRewriting
