import Mathlib.Data.List.Forall2
import ScopedRewriting.Engine.Meaning

/-!
# What the steps of rewriting do

Beside each step of the engine stands a relation that says what it does with a term. As the steps
leave open how terms come to normal form (`norm`), the relations do: `N` says which terms come to
which normal forms. So what holds of a step is shown once, for every `N`.
-/

namespace ScopedRewriting

/-- Which terms come to which normal forms, in each scope. -/
abbrev Normalization := Scope → Term → Term → Prop

section

variable (π : Policy) (N : Normalization) (s : Scope)

/-- `normalizeElements` -/
inductive Elementwise : Term → Term → Prop
  | atom (a : Atom) : Elementwise (.atom a) (.atom a)
  | seq {ts us : List Term} : List.Forall₂ (N s) ts us → Elementwise (.seq ts) (.group us)

/-- `Rule.apply` -/
inductive Applies (t : Term) : Rule → Option Term → Prop
  | empty : Applies t .empty none
  | undirected : t.directive? = none → Applies t .declaration none
  | refuse {d : Term.Directive} : t.directive? = some d → Pattern.ofTerm? d.pattern = none →
      Applies t .declaration none
  | declare {d : Term.Directive} {p : Pattern} {u : Term} : t.directive? = some d →
      Pattern.ofTerm? d.pattern = some p →
      N (s.extend π (.function p d.replacement s)) d.subject u → Applies t .declaration (some u)
  | replace {a : Atom} {u : Term} : t = .atom a → Applies t (.subst a u) (some u)
  | keep {a : Atom} {u : Term} : t ≠ .atom a → Applies t (.subst a u) none
  | mismatch {p : Pattern} {body : Term} {c : Scope} : p.match? t = none →
      Applies t (.function p body c) none
  | fire {p : Pattern} {body u v : Term} {c : Scope} {b : Bindings} : p.match? t = some b →
      N (.ofBindings π b) body u → N c u v → Applies t (.function p body c) (some v)

/-- `applyFirst` -/
inductive AppliesFirst (t : Term) : List Rule → Option Term → Prop
  | nil : AppliesFirst t [] none
  | here {r : Rule} {rs : List Rule} {u : Term} : Applies π N s t r (some u) →
      AppliesFirst t (r :: rs) (some u)
  | there {r : Rule} {rs : List Rule} {u? : Option Term} : Applies π N s t r none →
      AppliesFirst t rs u? → AppliesFirst t (r :: rs) u?

/-- `reduceOnce` -/
inductive Reduces : Term → Term → Prop
  | apply {t t' u : Term} : Elementwise N s t t' → AppliesFirst π N s t' s.rules (some u) →
      Reduces t u
  | keep {t t' : Term} : Elementwise N s t t' → AppliesFirst π N s t' s.rules none → Reduces t t'

end

/-- `settle` -/
inductive Settles (R : Term → Term → Prop) : Term → Term → Prop
  | stop {t : Term} : R t t → Settles R t t
  | go {t u n : Term} : R t u → u ≠ t → Settles R u n → Settles R t n

section

variable (π : Policy) (N : Normalization) (s : Scope)

/-- What is brought to normal form, and in which scope, when a rule is applied to `t` in `s`. -/
inductive Rule.Needs (t : Term) : Rule → Scope → Term → Prop
  | declare {d : Term.Directive} {p : Pattern} : t.directive? = some d →
      Pattern.ofTerm? d.pattern = some p →
      Needs t .declaration (s.extend π (.function p d.replacement s)) d.subject
  | body {p : Pattern} {body : Term} {c : Scope} {b : Bindings} : p.match? t = some b →
      Needs t (.function p body c) (.ofBindings π b) body
  | result {p : Pattern} {body u : Term} {c : Scope} {b : Bindings} : p.match? t = some b →
      N (.ofBindings π b) body u → Needs t (.function p body c) c u

/-- What is brought to normal form, and in which scope, when a term is reduced in `s`. -/
inductive Needs : Term → Scope → Term → Prop
  | element {ts : List Term} {u : Term} : u ∈ ts → Needs (.seq ts) s u
  | rule {t t' u : Term} {r : Rule} {s' : Scope} : Elementwise N s t t' → r ∈ s.rules →
      r.Needs π N s t' s' u → Needs t s' u

end

/-- Once `G` holds of a scope and a term, it holds of all that the steps lead to. -/
structure Invariant (π : Policy) (N : Normalization) (G : Scope → Term → Prop) : Prop where
  needs {s s' : Scope} {t u : Term} : G s t → Needs π N s t s' u → G s' u
  reduces {s : Scope} {t u : Term} : G s t → Reduces π N s t u → G s u

variable {π : Policy} {N N' : Normalization} {s : Scope}

theorem invariant_true : Invariant π N fun _ _ => True where
  needs _ _ := trivial
  reduces _ _ := trivial

theorem invariant_of_scopes {G : Scope → Prop} (h : ∀ s t s' u, G s → Needs π N s t s' u → G s') :
    Invariant π N fun s _ => G s where
  needs := h _ _ _ _
  reduces hs _ := hs

/-! ## More normal forms -/

theorem Elementwise.mono (h : ∀ t u, N s t u → N' s t u) {t u : Term} :
    Elementwise N s t u → Elementwise N' s t u := by
  intro ht
  cases ht with
  | atom a => exact .atom a
  | seq hts => exact .seq (hts.imp fun t u => h t u)

theorem Applies.mono (h : ∀ s t u, N s t u → N' s t u) {t : Term} {r : Rule} {u? : Option Term} :
    Applies π N s t r u? → Applies π N' s t r u? := by
  intro hr
  cases hr with
  | empty => exact .empty
  | undirected hd => exact .undirected hd
  | refuse hd hp => exact .refuse hd hp
  | declare hd hp hu => exact .declare hd hp (h _ _ _ hu)
  | replace ht => exact .replace ht
  | keep ht => exact .keep ht
  | mismatch hm => exact .mismatch hm
  | fire hm hu hv => exact .fire hm (h _ _ _ hu) (h _ _ _ hv)

theorem AppliesFirst.mono (h : ∀ s t u, N s t u → N' s t u) {t : Term} {rs : List Rule}
    {u? : Option Term} : AppliesFirst π N s t rs u? → AppliesFirst π N' s t rs u? := by
  intro hrs
  induction hrs with
  | nil => exact .nil
  | here hr => exact .here (hr.mono h)
  | there hr _ ih => exact .there (hr.mono h) ih

theorem Reduces.mono (h : ∀ s t u, N s t u → N' s t u) {t u : Term} :
    Reduces π N s t u → Reduces π N' s t u := by
  intro ht
  cases ht with
  | apply he hr => exact .apply (he.mono (h s)) (hr.mono h)
  | keep he hr => exact .keep (he.mono (h s)) (hr.mono h)

theorem Settles.mono {R R' : Term → Term → Prop} (h : ∀ t u, R t u → R' t u) {t u : Term} :
    Settles R t u → Settles R' t u := by
  intro ht
  induction ht with
  | stop hr => exact .stop (h _ _ hr)
  | go hr hne _ ih => exact .go (h _ _ hr) hne ih

/-- A step leads to where its result settles, also when the result is the term that the step began
with. -/
theorem Settles.head {R : Term → Term → Prop} {t u n : Term} (h : R t u) (hu : Settles R u n) :
    Settles R t n := by
  by_cases heq : u = t
  · exact heq ▸ hu
  · exact .go h heq hu

/-- The loop ends where a step does not change the term. -/
theorem Settles.fixed {R : Term → Term → Prop} {t u : Term} (h : Settles R t u) : R u u := by
  induction h with
  | stop hr => exact hr
  | go _ _ _ ih => exact ih

/-! ## Lists that are related element by element -/

section

variable {α β : Type*} {R : α → β → Prop} {as : List α} {bs : List β}

theorem forall₂_mem_left (h : List.Forall₂ R as bs) {a : α} (ha : a ∈ as) : ∃ b ∈ bs, R a b := by
  obtain ⟨i, hi, rfl⟩ := List.getElem_of_mem ha
  have hi' : i < bs.length := h.length_eq ▸ hi
  exact ⟨bs[i], List.getElem_mem hi', h.get hi hi'⟩

theorem forall₂_mem_right (h : List.Forall₂ R as bs) {b : β} (hb : b ∈ bs) : ∃ a ∈ as, R a b :=
  forall₂_mem_left h.flip hb

theorem exists_forall₂ (h : ∀ a ∈ as, ∃ b, R a b) : ∃ bs, List.Forall₂ R as bs := by
  induction as with
  | nil => exact ⟨[], .nil⟩
  | cons a as ih =>
      obtain ⟨b, hb⟩ := h a (by simp)
      obtain ⟨bs, hbs⟩ := ih fun a' ha' => h a' (by simp [ha'])
      exact ⟨b :: bs, .cons hb hbs⟩

theorem forall₂_replace {a a' : α} (h : ∀ b, R a b → R a' b) {before after : List α}
    (has : List.Forall₂ R (before ++ a :: after) bs) :
    List.Forall₂ R (before ++ a' :: after) bs := by
  induction before generalizing bs with
  | nil =>
      cases has with
      | cons ha hafter => exact .cons (h _ ha) hafter
  | cons c before ih =>
      cases has with
      | cons hc has => exact .cons hc (ih has)

end

/-! ## The elements of a sequence -/

theorem elementwise_seq_iff {ts : List Term} {u : Term} :
    Elementwise N s (.seq ts) u ↔ ∃ us, List.Forall₂ (N s) ts us ∧ u = .group us := by
  constructor
  · intro h
    cases h with
    | seq hts => exact ⟨_, hts, rfl⟩
  · rintro ⟨us, hts, rfl⟩
    exact .seq hts

theorem Elementwise.seq_of_length {ts us : List Term} (h : List.Forall₂ (N s) ts us)
    (hlen : us.length ≠ 1) : Elementwise N s (.seq ts) (.seq us) := by
  rw [← Term.group_eq_seq hlen]
  exact .seq h

theorem elementwise_seq_self_iff {ts : List Term} (hlen : ts.length ≠ 1) :
    Elementwise N s (.seq ts) (.seq ts) ↔ ∀ t ∈ ts, N s t t := by
  constructor
  · intro he
    obtain ⟨us, hts, heq⟩ := elementwise_seq_iff.mp he
    rw [Term.group_eq_seq (hts.length_eq ▸ hlen)] at heq
    cases heq
    exact List.forall₂_same.mp hts
  · intro hts
    exact .seq_of_length (List.forall₂_same.mpr hts) hlen

/-! ## The rule that applies -/

theorem applies_function_iff {t : Term} {p : Pattern} {body : Term} {c : Scope} {b : Bindings}
    {u? : Option Term} (hm : p.match? t = some b) : Applies π N s t (.function p body c) u? ↔
      ∃ u v, N (.ofBindings π b) body u ∧ N c u v ∧ u? = some v := by
  constructor
  · intro h
    cases h with
    | mismatch hm' => simp [hm] at hm'
    | fire hm' hu hv =>
        cases hm.symm.trans hm'
        exact ⟨_, _, hu, hv, rfl⟩
  · rintro ⟨u, v, hu, hv, rfl⟩
    exact .fire hm hu hv

theorem AppliesFirst.exists_mem {t u : Term} {rs : List Rule}
    (h : AppliesFirst π N s t rs (some u)) : ∃ r ∈ rs, Applies π N s t r (some u) := by
  generalize hu : some u = u? at h
  induction h with
  | nil => cases hu
  | here hr =>
      cases hu
      exact ⟨_, by simp, hr⟩
  | there _ _ ih =>
      obtain ⟨r, hm, hr⟩ := ih hu
      exact ⟨r, by simp [hm], hr⟩

theorem AppliesFirst.none_of_mem {t : Term} {rs : List Rule} (h : AppliesFirst π N s t rs none) :
    ∀ r ∈ rs, Applies π N s t r none := by
  generalize hu : none = u? at h
  induction h with
  | nil => simp
  | here _ => cases hu
  | there hr _ ih =>
      subst hu
      intro r hm
      rcases List.mem_cons.mp hm with rfl | hm
      · exact hr
      · exact ih rfl r hm

theorem exists_appliesFirst {t : Term} {rs : List Rule} (h : ∀ r ∈ rs, ∃ u?, Applies π N s t r u?) :
    ∃ u?, AppliesFirst π N s t rs u? := by
  induction rs with
  | nil => exact ⟨none, .nil⟩
  | cons r rs ih =>
      obtain ⟨u?, hr⟩ := h r (by simp)
      cases u? with
      | some u => exact ⟨some u, .here hr⟩
      | none =>
          obtain ⟨v?, hrs⟩ := ih fun q hq => h q (by simp [hq])
          exact ⟨v?, .there hr hrs⟩

end ScopedRewriting
