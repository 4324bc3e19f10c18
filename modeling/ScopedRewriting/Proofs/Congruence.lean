import ScopedRewriting.Proofs.Memory
import ScopedRewriting.Term.Subterm

/-!
# Replacing parts of terms

Two terms with the same normal form may stand for each other in every context
(`rewriting_congruence`). The runs of both may settle after a different number of steps, as a run
ends where a step yields the term that the step began with.
-/

namespace ScopedRewriting

variable {π : Policy} {s : Scope} {t u : Term}

/-! ## One sequence around the term -/

theorem Elementwise.replace {N : Normalization} (h : ∀ v, N s t v → N s u v)
    {before after : List Term} {v : Term} (ht : Elementwise N s (.seq (before ++ t :: after)) v) :
    Elementwise N s (.seq (before ++ u :: after)) v := by
  obtain ⟨vs, hts, rfl⟩ := elementwise_seq_iff.mp ht
  exact .seq (forall₂_replace h hts)

theorem Reduces.of_elementwise {N : Normalization}
    (h : ∀ v, Elementwise N s t v → Elementwise N s u v) {v : Term} (ht : Reduces π N s t v) :
    Reduces π N s u v := by
  cases ht with
  | apply he hr => exact .apply (h _ he) hr
  | keep he hr => exact .keep (h _ he) hr

/-- What one step makes of two terms decides where both settle, even though one of them may be the
result of the step. -/
theorem Settles.of_step {R : Term → Term → Prop} (h : ∀ v, R t v → R u v) {n : Term}
    (ht : Settles R t n) : Settles R u n := by
  cases ht with
  -- one run ends at once, while the other may have to come to `t` first
  | stop hr => exact (Settles.stop hr).head (h _ hr)
  | go hr _ hn => exact hn.head (h _ hr)

theorem NormalForm.replace (h : ∀ v, NormalForm π s t v → NormalForm π s u v)
    {before after : List Term} {n : Term} (ht : NormalForm π s (.seq (before ++ t :: after)) n) :
    NormalForm π s (.seq (before ++ u :: after)) n := by
  refine normalForm_iff.mpr ((normalForm_iff.mp ht).of_step fun v hv => ?_)
  exact hv.of_elementwise fun w hw => hw.replace h

/-! ## Any context -/

theorem NormalForm.fill (h : ∀ v, NormalForm π s t v → NormalForm π s u v) (c : Term.Context)
    {n : Term} (ht : NormalForm π s (c.fill t) n) : NormalForm π s (c.fill u) n := by
  induction c generalizing n with
  | hole => exact h n ht
  | seq before inner after ih => exact NormalForm.replace (fun v => ih) ht

theorem normalForm_fill_iff {n : Term} (ht : NormalForm π s t n) (hu : NormalForm π s u n)
    (c : Term.Context) (v : Term) : NormalForm π s (c.fill t) v ↔ NormalForm π s (c.fill u) v := by
  constructor
  · refine NormalForm.fill (fun w hw => ?_) c
    exact hw.unique ht ▸ hu
  · refine NormalForm.fill (fun w hw => ?_) c
    exact hw.unique hu ▸ ht

/-- Terms with the same normal form may be exchanged in a context, sequences of one element
included, and so may a term and its normal form. Which engines answer, and what they remember, does
not matter. -/
theorem rewriting_congruence {engine engine' : Engine} (h : engine.Filled π) (h' : engine'.Filled π)
    {n : Term} (ht : engine.Answers π (.normalize s t) n)
    (hu : engine'.Answers π (.normalize s u) n) (c : Term.Context) :
    ((∃ v : Term, engine.Answers π (.normalize s (c.fill t)) v) ↔
      ∃ v : Term, engine'.Answers π (.normalize s (c.fill u)) v) ∧
    (∀ v w : Term, engine.Answers π (.normalize s (c.fill t)) v →
      engine'.Answers π (.normalize s (c.fill u)) w → v = w) ∧
    ∀ v : Term, engine.Answers π (.normalize s (c.fill t)) v ↔
      engine'.Answers π (.normalize s (c.fill n)) v := by
  simp only [h.normalizes_iff, h'.normalizes_iff] at ht hu ⊢
  refine ⟨exists_congr (normalForm_fill_iff ht hu c), fun v w hv hw => ?_, ?_⟩
  · exact NormalForm.unique ((normalForm_fill_iff ht hu c v).mp hv) hw
  · exact normalForm_fill_iff ht ht.self c

/-- `[A -> B A]` -/
private def declaredB : Term :=
  Term.Directive.toTerm ⟨.atom ⟨"A"⟩, .atom ⟨"B"⟩, .atom ⟨"A"⟩⟩

/-- A declaration whose pattern is to be filled in. -/
private def openPattern : Term.Context :=
  .seq [] .hole [.atom .arrow, .atom ⟨"D"⟩, .atom ⟨"B"⟩]

/-- The pattern of a declaration is a declaration that comes to `B`. -/
theorem rewriting_congruence_in_pattern :
    Engine.Filled .standard {} ∧
    Engine.Answers .standard {} (.normalize (.base .standard) declaredB) (.atom ⟨"B"⟩) ∧
    Engine.Answers .standard {} (.normalize (.base .standard) (openPattern.fill declaredB))
      (.atom ⟨"D"⟩) := by
  have h : Engine.Filled .standard {} := .fresh
  have ht : Engine.Answers .standard {} (.normalize (.base .standard) declaredB) (.atom ⟨"B"⟩) :=
    h.normalizes_iff.mpr ⟨5, by decide +kernel⟩
  have hD : Engine.Answers .standard {}
      (.normalize (.base .standard) (openPattern.fill (.atom ⟨"B"⟩))) (.atom ⟨"D"⟩) :=
    h.normalizes_iff.mpr ⟨5, by decide +kernel⟩
  exact ⟨h, ht, ((rewriting_congruence h h ht ht openPattern).2.2 _).mpr hD⟩

end ScopedRewriting
