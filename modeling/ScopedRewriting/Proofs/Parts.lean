import ScopedRewriting.Proofs.Allowance
import ScopedRewriting.Proofs.Directives
import ScopedRewriting.Proofs.Substitution
import ScopedRewriting.Proofs.Vocabulary

/-!
# The parts of a normal form

Rewriting ends when a step does not change the term, but a step may change the elements of a term
and then put the term back by a rule. The parts of a normal form are in normal form exactly if this
happens to none of them (`parts_normal_iff`). It does happen (`parts_reducible`), though not in the
base scope, where programs are evaluated, nor where variables are replaced.
-/

namespace ScopedRewriting

variable {π : Policy} {engine : Engine} {s : Scope} {t u n : Term}

/-! ## The elements of a normal form -/

/-- The elements of the term do not stay as they are, but a rule of the scope leads back to the
term. -/
def Engine.PutsBack (π : Policy) (engine : Engine) (s : Scope) (t : Term) : Prop :=
  ∃ u, u ≠ t ∧ engine.Answers π (.normalizeElements s t) u ∧
    ∃ r ∈ s.rules, engine.Answers π (.apply r s u) (some t)

theorem Engine.Filled.putsBack_iff (h : engine.Filled π) : engine.PutsBack π s t ↔
    ∃ u, u ≠ t ∧ Elementwise (NormalForm π) s t u ∧
      ∃ r ∈ s.rules, Applies π (NormalForm π) s u r (some t) := by
  have helements (u : Term) :
      engine.Answers π (.normalizeElements s t) u ↔ Elementwise (NormalForm π) s t u :=
    (h.answers_iff (.normalizeElements s t) u).trans result_iff_means
  simp only [PutsBack, helements, h.applies_iff]

/-- The elements of a normal form stay as they are, unless it is put back. -/
theorem NormalForm.elementwise_self (hn : NormalForm π s n n) (h : engine.Filled π)
    (hback : ¬ engine.PutsBack π s n) : Elementwise (NormalForm π) s n n := by
  obtain ⟨u, he, hu⟩ : ∃ u, Elementwise (NormalForm π) s n u ∧
      (u = n ∨ ∃ r ∈ s.rules, Applies π (NormalForm π) s u r (some n)) := by
    cases hn.reduces with
    | apply he hr => exact ⟨_, he, .inr hr.exists_mem⟩
    | keep he _ => exact ⟨n, he, .inl rfl⟩
  by_cases heq : u = n
  · exact heq ▸ he
  · exact absurd (h.putsBack_iff.mpr ⟨u, heq, he, hu.resolve_left heq⟩) hback

/-! ## All parts -/

theorem normalForm_of_subterm (h : engine.Filled π) (hn : NormalForm π s n n) (hc : n.Collapsed)
    (hback : ∀ t, Term.Subterm t n → ¬ engine.PutsBack π s t) (hu : Term.Subterm u n) :
    NormalForm π s u u := by
  induction hu with
  | refl => exact hn
  | element ht _ ih =>
      obtain ⟨hlen, hts⟩ := Term.collapsed_seq_iff.mp hc
      have helements := hn.elementwise_self h (hback _ (.refl _))
      refine ih ((elementwise_seq_self_iff hlen).mp helements _ ht) (hts _ ht) fun v hv => ?_
      exact hback v (hv.trans (.element ht (.refl _)))

theorem not_putsBack (h : engine.Filled π) (hc : t.Collapsed)
    (ht : ∀ u, Term.Subterm u t → NormalForm π s u u) : ¬ engine.PutsBack π s t := by
  rw [h.putsBack_iff]
  rintro ⟨u, hne, he, -⟩
  have hself : Elementwise (NormalForm π) s t t := by
    cases t with
    | atom a => exact .atom a
    | seq ts =>
        refine (elementwise_seq_self_iff (Term.collapsed_seq_iff.mp hc).1).mpr fun u hu => ?_
        exact ht u (.element hu (.refl u))
  exact hne (he.unique hself)

theorem Term.Final.of_subterm {b : Bindings} (h : t.Final b) (hu : Subterm u t) : u.Final b := by
  induction hu with
  | refl => exact h
  | element hm _ ih => exact ih ((final_seq_iff.mp h).2 _ hm)

/-- A term is brought to a normal form whose parts are all in normal form if and only if none of
them is put back. In the base scope and in the scopes of matches none is. -/
theorem parts_normal_iff (h : engine.Filled π) (hs : s.Supplies Term.Collapsed) (ht : t.Collapsed)
    (hn : engine.Answers π (.normalize s t) n) :
    ((∀ u, Term.Subterm u n → engine.Answers π (.normalize s u) u) ↔
      ∀ u, Term.Subterm u n → ¬ engine.PutsBack π s u) ∧
    (s = .base π ∨ s.Replacing π →
      ∀ u, Term.Subterm u n → engine.Answers π (.normalize s u) u) := by
  simp only [h.normalizes_iff] at hn ⊢
  have hc : n.Collapsed := hn.hereditary Term.hereditary_collapsed hs ht
  refine ⟨⟨fun hparts t ht => ?_, fun hback u hu => ?_⟩, ?_⟩
  · exact not_putsBack h (hc.of_subterm ht) fun u hu => hparts u (hu.trans ht)
  · exact normalForm_of_subterm h hn.self hc hback hu
  · rintro (rfl | hs) u hu
    · have hd : n.DirectiveFree := hn.directiveFree .base
      exact normalForm_base_self (hd.of_subterm hu) (hc.of_subterm hu)
    · cases hs with
      | intro b => exact (hn.final.of_subterm hu).normalForm

private def fOf (a : String) : Term := .seq [.atom ⟨"f"⟩, .atom ⟨a⟩]

/-- The base scope with the rule from `[f B]` to `[f A]` -/
private def backward : Scope :=
  (Scope.base .standard).extend .standard
    (.function (.seq [.lit ⟨"f"⟩, .lit ⟨"B"⟩]) (fOf "A") (.base .standard))

/-- The rule from `A` to `B` is in front. -/
private def swinging : Scope :=
  backward.extend .standard (.function (.lit ⟨"A"⟩) (.atom ⟨"B"⟩) backward)

private theorem normalForm_swinging_self : NormalForm .standard swinging (fOf "A") (fOf "A") :=
  ⟨6, by decide +kernel⟩

private theorem normalForm_swinging_element :
    NormalForm .standard swinging (.atom ⟨"A"⟩) (.atom ⟨"B"⟩) :=
  ⟨6, by decide +kernel⟩

private theorem not_normalForm_swinging_element :
    ¬ NormalForm .standard swinging (.atom ⟨"A"⟩) (.atom ⟨"A"⟩) := by
  intro hA
  have heq := normalForm_swinging_element.unique hA
  simp at heq

private theorem subterm_fOf (a : String) : Term.Subterm (.atom ⟨a⟩) (fOf a) :=
  .element (by simp) (.refl _)

/-- `[f A]` is put back where its element `A` comes to `B`; where programs are evaluated, it is
not. -/
theorem parts_normal_iff_swinging :
    Engine.Filled .standard {} ∧ swinging.Supplies Term.Collapsed ∧ (fOf "A").Collapsed ∧
    Engine.Answers .standard {} (.normalize swinging (fOf "A")) (fOf "A") ∧
    (∃ u, Term.Subterm u (fOf "A") ∧ Engine.PutsBack .standard {} swinging u) ∧
    Engine.Answers .standard {} (.normalize (.base .standard) (fOf "A")) (fOf "A") ∧
    Engine.Answers .standard {} (.normalize (.base .standard) (.atom ⟨"A"⟩)) (.atom ⟨"A"⟩) := by
  have h : Engine.Filled .standard {} := .fresh
  have hf (a : String) : (fOf a).Collapsed :=
    Term.collapsed_seq_iff.mpr ⟨by simp, by simp [Term.collapsed_atom]⟩
  have hbackward : backward.Supplies Term.Collapsed :=
    Scope.supplies_base.extend (.function _ (hf "A") Scope.supplies_base)
  have hs : swinging.Supplies Term.Collapsed :=
    hbackward.extend (.function _ (Term.collapsed_atom _) hbackward)
  have hself : Engine.Answers .standard {} (.normalize swinging (fOf "A")) (fOf "A") :=
    h.normalizes_iff.mpr normalForm_swinging_self
  have hbase : Engine.Answers .standard {} (.normalize (.base .standard) (fOf "A")) (fOf "A") :=
    h.normalizes_iff.mpr ⟨6, by decide +kernel⟩
  refine ⟨h, hs, hf "A", hself, ?_, hbase, ?_⟩
  · by_contra hnone
    have hparts := (parts_normal_iff h hs (hf "A") hself).1.mpr
      fun u hu hback => hnone ⟨u, hu, hback⟩
    exact not_normalForm_swinging_element (h.normalizes_iff.mp (hparts _ (subterm_fOf "A")))
  · exact (parts_normal_iff h Scope.supplies_base (hf "A") hbase).2 (.inl rfl) _ (subterm_fOf "A")

/-- The normal form `[f A]` has the part `A`, which comes to `B`. -/
theorem parts_reducible :
    swinging.Lexical .standard ∧
    Engine.Answers .standard {} (.normalize swinging (fOf "A")) (fOf "A") ∧
    Term.Subterm (.atom ⟨"A"⟩) (fOf "A") ∧
    Engine.Answers .standard {} (.normalize swinging (.atom ⟨"A"⟩)) (.atom ⟨"B"⟩) ∧
    ¬ Engine.Answers .standard {} (.normalize swinging (.atom ⟨"A"⟩)) (.atom ⟨"A"⟩) := by
  have h : Engine.Filled .standard {} := .fresh
  refine ⟨.declare _ _ (.declare _ _ .base), h.normalizes_iff.mpr normalForm_swinging_self,
    subterm_fOf "A", h.normalizes_iff.mpr normalForm_swinging_element, ?_⟩
  rw [h.normalizes_iff]
  exact not_normalForm_swinging_element

end ScopedRewriting
