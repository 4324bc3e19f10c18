import ScopedRewriting.Term.Basic

/-!
# Parts of terms

Subterms, contexts with one hole, and what may be said of all parts of a term at once.
-/

namespace ScopedRewriting

namespace Term

/-- Induction over terms, with the elements of a sequence at hand. -/
@[elab_as_elim]
theorem induct {motive : Term → Prop} (atom : ∀ a, motive (.atom a))
    (seq : ∀ ts, (∀ t ∈ ts, motive t) → motive (.seq ts)) : (t : Term) → motive t
  | .atom a => atom a
  | .seq ts => seq ts fun t _ => induct atom seq t
termination_by t => sizeOf t
decreasing_by
  have := List.sizeOf_lt_of_mem ‹_›
  simp only [Term.seq.sizeOf_spec]
  omega

/-- The first term is the second one, or a part of it. -/
inductive Subterm : Term → Term → Prop
  | refl (t : Term) : Subterm t t
  | element {t u : Term} {ts : List Term} : u ∈ ts → Subterm t u → Subterm t (.seq ts)

theorem Subterm.trans {t u v : Term} (h : Subterm t u) (h' : Subterm u v) : Subterm t v := by
  induction h' with
  | refl => exact h
  | element hm _ ih => exact .element hm ih

theorem subterm_atom_iff {t : Term} {a : Atom} : Subterm t (.atom a) ↔ t = .atom a :=
  ⟨fun h => by cases h; rfl, fun h => h ▸ .refl _⟩

theorem subterm_seq_iff {t : Term} {ts : List Term} :
    Subterm t (.seq ts) ↔ t = .seq ts ∨ ∃ u ∈ ts, Subterm t u := by
  constructor
  · intro h
    cases h with
    | refl => exact .inl rfl
    | element hm h => exact .inr ⟨_, hm, h⟩
  · rintro (rfl | ⟨u, hm, h⟩)
    · exact .refl _
    · exact .element hm h

/-- No part of the term is a directive. -/
def DirectiveFree (t : Term) : Prop :=
  ∀ u, Subterm u t → u.directive? = none

/-- No part of the term is a sequence of a single element, as no form says one. -/
def Collapsed (t : Term) : Prop :=
  ∀ ts, Subterm (.seq ts) t → ts.length ≠ 1

theorem DirectiveFree.of_subterm {t u : Term} (h : t.DirectiveFree) (hu : Subterm u t) :
    u.DirectiveFree :=
  fun v hv => h v (hv.trans hu)

theorem Collapsed.of_subterm {t u : Term} (h : t.Collapsed) (hu : Subterm u t) : u.Collapsed :=
  fun ts hts => h ts (hts.trans hu)

theorem directiveFree_atom (a : Atom) : (atom a).DirectiveFree := by
  intro u hu
  rw [subterm_atom_iff.mp hu]
  rfl

theorem directiveFree_seq_iff {ts : List Term} :
    (seq ts).DirectiveFree ↔ (seq ts).directive? = none ∧ ∀ t ∈ ts, t.DirectiveFree := by
  constructor
  · intro h
    exact ⟨h _ (.refl _), fun t ht => h.of_subterm (.element ht (.refl t))⟩
  · rintro ⟨hd, hts⟩ u hu
    rcases subterm_seq_iff.mp hu with rfl | ⟨t, ht, hut⟩
    · exact hd
    · exact hts t ht u hut

theorem collapsed_atom (a : Atom) : (atom a).Collapsed := by
  intro ts hts
  simp [subterm_atom_iff] at hts

theorem collapsed_seq_iff {ts : List Term} :
    (seq ts).Collapsed ↔ ts.length ≠ 1 ∧ ∀ t ∈ ts, t.Collapsed := by
  constructor
  · intro h
    exact ⟨h ts (.refl _), fun t ht => h.of_subterm (.element ht (.refl t))⟩
  · rintro ⟨hlen, hts⟩ us hus
    rcases subterm_seq_iff.mp hus with heq | ⟨t, ht, hut⟩
    · cases heq
      exact hlen
    · exact hts t ht us hut

theorem collapsed_group {ts : List Term} (h : ∀ t ∈ ts, t.Collapsed) : (group ts).Collapsed :=
  group_of h fun hlen => collapsed_seq_iff.mpr ⟨hlen, h⟩

/-- Forms say collapsed terms. -/
theorem collapsed_ofForm : (f : Form) → (ofForm f).Collapsed
  | .word _ => collapsed_atom _
  | .quoted _ => collapsed_atom _
  | .group fs => by
      rw [ofForm, ofForms_eq_map]
      refine collapsed_group fun t ht => ?_
      obtain ⟨f, hf, rfl⟩ := List.mem_map.mp ht
      exact collapsed_ofForm f
termination_by f => sizeOf f
decreasing_by
  have := List.sizeOf_lt_of_mem hf
  simp only [Form.group.sizeOf_spec]
  omega

/-- A term with one hole. -/
inductive Context where
  | hole
  | seq (before : List Term) (inner : Context) (after : List Term)

namespace Context

def fill (t : Term) : Context → Term
  | .hole => t
  | .seq before inner after => .seq (before ++ inner.fill t :: after)

end Context

end Term

end ScopedRewriting
