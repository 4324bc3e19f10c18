import Mathlib.Logic.Equiv.Basic
import ScopedRewriting.Proofs.Simulation

/-!
# Names do not matter

Rewriting compares names with one another, but looks into them only for the arrow, the joker and the
mark of variables. So rewriting goes on alike if all atoms are renamed, in the scope as in the term
(`normalize_rename`), although the rules of a match may then come in another order.
-/

namespace ScopedRewriting

variable {π π' : Policy} {f : Atom → Atom} {s : Scope}

namespace Scope

theorem rules_rename : (s.rename π f).rules = s.rules.map (Rule.rename π f) := by
  induction s with
  | nil => rfl
  | link k r s ih => exact congrArg (r.rename π f :: ·) ih

theorem rename_extend (r : Rule) :
    (s.extend π r).rename π' f = (s.rename π' f).extend π' (r.rename π' f) := by
  cases r <;> rfl

end Scope

theorem Rule.like_rename (r : Rule) :
    Rule.Like f (fun _ => True) (fun s s' => s' = s.rename π f) r (r.rename π f) := by
  cases r with
  | empty => exact .empty
  | declaration => exact .declaration
  | subst a t => exact .subst a t trivial
  | function p body c => exact .function p body trivial rfl

theorem Rule.follow_rename (t : Term) (rs : List Rule) :
    Rule.Follow f (fun _ => True) (fun s s' => s' = s.rename π f) t rs
      (rs.map (Rule.rename π f)) := by
  induction rs with
  | nil => exact .nil
  | cons r rs ih => exact .both r.like_rename fun _ => ih

def Simulation.renaming (π π' : Policy) (f : Atom → Atom) : Simulation π π' f fun _ => True where
  Alike s s' := s' = s.rename π' f
  follow := by
    rintro s _ t rfl _
    rw [Scope.rules_rename]
    exact Rule.follow_rename t s.rules
  declare := by
    rintro s _ body p rfl _
    exact (Scope.rename_extend (.function p body s)).symm

/-- The normal forms of a renamed term in a renamed scope are the renamed normal forms. -/
theorem normalize_rename {engine engine' : Engine} (h : engine.Filled π) (h' : engine'.Filled π)
    (hf : Atom.Renaming f) (s : Scope) (t w : Term) :
    engine'.Answers π (.normalize (s.rename π f) (t.rename f)) w ↔
      ∃ u : Term, w = u.rename f ∧ engine.Answers π (.normalize s t) u := by
  simp only [h.normalizes_iff, h'.normalizes_iff]
  exact (Simulation.renaming π π f).normalForm_rename_iff hf Term.hereditary_true rfl trivial

/-- Renames atoms character by character. -/
def Atom.spell (σ : Char → Char) (a : Atom) : Atom :=
  ⟨String.ofList (a.name.toList.map σ)⟩

theorem Atom.renaming_spell {σ : Char → Char} (hσ : Function.Injective σ)
    (hfixed : ['-', '>', '_', quoteMark].map σ = ['-', '>', '_', quoteMark]) :
    Renaming (spell σ) where
  injective a b hab := by
    rw [spell, spell, Atom.mk.injEq, String.ofList_inj, (List.map_injective_iff.mpr hσ).eq_iff,
      String.toList_inj] at hab
    exact congrArg Atom.mk hab
  arrow := by simp_all [spell, arrow]
  joker := by simp_all [spell, joker]
  marked a := by simp_all [spell, marked, quoteMark]
  unmarked {a} h := by
    simp only [spell, unmarked?, String.toList_ofList] at h ⊢
    generalize a.name.toList = cs at h ⊢
    cases cs with
    | nil => simp at h
    | cons c cs =>
        have hmark : σ quoteMark = quoteMark := by simp_all
        have hc : σ c = quoteMark ↔ c = quoteMark := by rw [← hσ.eq_iff (a := c), hmark]
        by_cases heq : c = quoteMark
        · simp [heq]
        · simp [hc, heq] at h

/-- The base scope with the rule from `[f 'x 'y]` to `[g x y]`. -/
private def pairing : Scope :=
  (Scope.base .standard).extend .standard
    (.function (.seq [.lit ⟨"f"⟩, .var ⟨"x"⟩, .var ⟨"y"⟩])
      (.seq [.atom ⟨"g"⟩, .atom ⟨"x"⟩, .atom ⟨"y"⟩]) (.base .standard))

/-- `[f xs [f x B]]`, where what `y` matches holds an `x`. -/
private def nestedPair : Term :=
  .seq [.atom ⟨"f"⟩, .atom ⟨"xs"⟩, .seq [.atom ⟨"f"⟩, .atom ⟨"x"⟩, .atom ⟨"B"⟩]]

/-- The variables change places, and so do the rules that replace them. -/
theorem normalize_rename_swapped :
    let f := Atom.spell (Equiv.swap 'x' 'y')
    Engine.Filled .standard {} ∧ Atom.Renaming f ∧
    nestedPair.rename f =
      .seq [.atom ⟨"f"⟩, .atom ⟨"ys"⟩, .seq [.atom ⟨"f"⟩, .atom ⟨"y"⟩, .atom ⟨"B"⟩]] ∧
    Engine.Answers .standard {} (.normalize (pairing.rename .standard f) (nestedPair.rename f))
      (.seq [.atom ⟨"g"⟩, .atom ⟨"ys"⟩, .seq [.atom ⟨"g"⟩, .atom ⟨"ys"⟩, .atom ⟨"B"⟩]]) := by
  intro f
  have h : Engine.Filled .standard {} := .fresh
  have hf : Atom.Renaming f := Atom.renaming_spell (Equiv.injective _) (by decide +kernel)
  have hu : Engine.Answers .standard {} (.normalize pairing nestedPair)
      (.seq [.atom ⟨"g"⟩, .atom ⟨"xs"⟩, .seq [.atom ⟨"g"⟩, .atom ⟨"xs"⟩, .atom ⟨"B"⟩]]) :=
    h.normalizes_iff.mpr ⟨8, by decide +kernel⟩
  refine ⟨h, hf, by decide +kernel, (normalize_rename h h hf pairing nestedPair _).mpr ⟨_, ?_, hu⟩⟩
  decide +kernel

end ScopedRewriting
