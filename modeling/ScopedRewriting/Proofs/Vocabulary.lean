import ScopedRewriting.Proofs.Matching
import ScopedRewriting.Proofs.Memory
import ScopedRewriting.Proofs.Printing
import ScopedRewriting.Proofs.Scopes

/-!
# Rewriting makes up nothing

What a rule puts in the place of a term is made of its body, of what it is declared with and of the
term itself. So the atoms of a normal form are atoms of the term or of the rules, and sequences of
one element do not come up (`NormalForm.hereditary`). As the base scope has no rules of its own,
what a program is evaluated to can be printed and read back (`evaluation_readable`).
-/

namespace ScopedRewriting

variable {π : Policy} {N : Normalization} {P : Term → Prop} {s : Scope} {t u : Term}

/-! ## Hereditary properties -/

/-- Elements inherit the property from their sequence, and a group has it if all of its elements
do. -/
structure Term.Hereditary (P : Term → Prop) : Prop where
  element {ts : List Term} : P (.seq ts) → ∀ t ∈ ts, P t
  group {ts : List Term} : (∀ t ∈ ts, P t) → P (.group ts)

theorem Term.Hereditary.subterm (hP : Hereditary P) (ht : P t) (h : Subterm u t) : P u := by
  induction h with
  | refl => exact ht
  | element hm _ ih => exact ih (hP.element ht _ hm)

theorem Term.hereditary_true : Hereditary fun _ => True where
  element _ _ _ := trivial
  group _ := trivial

theorem Term.hereditary_collapsed : Hereditary Collapsed where
  element h := (collapsed_seq_iff.mp h).2
  group := collapsed_group

theorem Term.hereditary_atoms (K : Atom → Prop) : Hereditary fun t => ∀ a ∈ t.atoms, K a where
  element h t ht a ha := by
    refine h a ?_
    rw [atoms, atomsAll_eq_flatMap]
    exact List.mem_flatMap.mpr ⟨t, ht, ha⟩
  group h a ha := by
    rw [atoms_group] at ha
    obtain ⟨t, ht, ha⟩ := List.mem_flatMap.mp ha
    exact h t ht a ha

/-! ## What rules put in the place of terms -/

mutual
/-- What the rule puts in the place of a term has the property, closures included. -/
inductive Rule.Supplies (P : Term → Prop) : Rule → Prop
  | empty : Rule.Supplies P .empty
  | declaration : Rule.Supplies P .declaration
  | subst (a : Atom) {t : Term} : P t → Rule.Supplies P (.subst a t)
  | function (p : Pattern) {body : Term} {c : Scope} : P body → Scope.Supplies P c →
      Rule.Supplies P (.function p body c)

inductive Scope.Supplies (P : Term → Prop) : Scope → Prop
  | nil : Scope.Supplies P .nil
  | link (hash : UInt64) {r : Rule} {s : Scope} : Rule.Supplies P r → Scope.Supplies P s →
      Scope.Supplies P (.link hash r s)
end

namespace Scope

theorem Supplies.of_mem (hs : s.Supplies P) {r : Rule} (hr : r ∈ s.rules) : r.Supplies P := by
  induction s with
  | nil => cases hr
  | link k q s ih =>
      cases hs with
      | link _ hq hs =>
          rcases List.mem_cons.mp hr with rfl | hr
          · exact hq
          · exact ih hs hr

theorem Supplies.extend (hs : s.Supplies P) {r : Rule} (hr : r.Supplies P) :
    (s.extend π r).Supplies P := by
  cases hr with
  | empty => exact hs
  | declaration => exact .link _ .declaration hs
  | subst a ht => exact .link _ (.subst a ht) hs
  | function p hbody hc => exact .link _ (.function p hbody hc) hs

theorem supplies_base : (base π).Supplies P :=
  Supplies.nil.extend .declaration

theorem Supplies.extendMany (hs : s.Supplies P) {rs : List Rule} (hrs : ∀ r ∈ rs, r.Supplies P) :
    (s.extendMany π rs).Supplies P := by
  induction rs generalizing s with
  | nil => exact hs
  | cons r rs ih =>
      obtain ⟨hr, hrs⟩ := List.forall_mem_cons.mp hrs
      exact ih (hs.extend hr) hrs

theorem supplies_ofBindings {b : Bindings} (h : ∀ v u, b.get? v = some u → P u) :
    (ofBindings π b).Supplies P := by
  refine Supplies.nil.extendMany fun r hr => ?_
  obtain ⟨⟨v, u⟩, he, rfl⟩ := List.mem_map.mp hr
  exact .subst v (h v u (Bindings.get?_eq_some_iff.mpr ((π.arrange_perm b).mem_iff.mp he)))

end Scope

/-! ## Normal forms -/

theorem Elementwise.hereditary (hP : Term.Hereditary P) (hN : ∀ t u, N s t u → P t → P u)
    (h : Elementwise N s t u) (ht : P t) : P u := by
  cases h with
  | atom a => exact ht
  | seq hts =>
      refine hP.group fun u hu => ?_
      obtain ⟨t, htm, htu⟩ := forall₂_mem_right hts hu
      exact hN t u htu (hP.element ht t htm)

theorem Scope.supplies_of_match? (hP : Term.Hereditary P) (ht : P t) {p : Pattern} {b : Bindings}
    (hm : p.match? t = some b) : (ofBindings π b).Supplies P :=
  supplies_ofBindings fun _ _ hw => hP.subterm ht (Pattern.subterm_of_match? hw _ _ hm)

/-- Whatever has to be brought to normal form for a rule to be applied has the property, too. -/
theorem Rule.Needs.hereditary (hP : Term.Hereditary P)
    (hN : ∀ s t u, N s t u → s.Supplies P → P t → P u) {r : Rule} {s' : Scope}
    (h : r.Needs π N s t s' u) (hs : s.Supplies P) (hr : r.Supplies P) (ht : P t) :
    s'.Supplies P ∧ P u := by
  cases h with
  | @declare d p hd _ =>
      rw [Term.directive?_eq_some_iff] at hd
      subst hd
      have hd := hP.element ht
      refine ⟨hs.extend (.function p (hd _ ?_) hs), hd _ ?_⟩ <;> simp
  | body hm =>
      cases hr with
      | function _ hbody _ => exact ⟨Scope.supplies_of_match? hP ht hm, hbody⟩
  | result hm hu =>
      cases hr with
      | function _ hbody hc => exact ⟨hc, hN _ _ _ hu (Scope.supplies_of_match? hP ht hm) hbody⟩

theorem Applies.hereditary (hP : Term.Hereditary P)
    (hN : ∀ s t u, N s t u → s.Supplies P → P t → P u) {r : Rule} (h : Applies π N s t r (some u))
    (hs : s.Supplies P) (hr : r.Supplies P) (ht : P t) : P u := by
  cases h with
  | declare hd hp hu =>
      obtain ⟨hs', ht'⟩ := Rule.Needs.hereditary hP hN (.declare hd hp) hs hr ht
      exact hN _ _ _ hu hs' ht'
  | replace _ =>
      cases hr with
      | subst _ hu => exact hu
  | fire hm hu hv =>
      obtain ⟨hc, hu⟩ := Rule.Needs.hereditary hP hN (.result hm hu) hs hr ht
      exact hN _ _ _ hv hc hu

theorem Reduces.hereditary (hP : Term.Hereditary P)
    (hN : ∀ s t u, N s t u → s.Supplies P → P t → P u) (h : Reduces π N s t u)
    (hs : s.Supplies P) (ht : P t) : P u := by
  have hs' : ∀ t u, N s t u → P t → P u := fun t u hu => hN s t u hu hs
  cases h with
  | apply he hr =>
      obtain ⟨r, hm, hr⟩ := hr.exists_mem
      exact hr.hereditary hP hN hs (hs.of_mem hm) (he.hereditary hP hs' ht)
  | keep he _ => exact he.hereditary hP hs' ht

/-- Normal forms have each hereditary property that the term has, as long as what the rules put in
has it. -/
theorem NormalForm.hereditary (hP : Term.Hereditary P) (h : NormalForm π s t u)
    (hs : s.Supplies P) (ht : P t) : P u := by
  refine NormalForm.induct (P := fun s t u => s.Supplies P → P t → P u) ?_ h hs ht
  intro s t u hu hs ht
  have hN : ∀ s t u, NormalForm π s t u ∧ (s.Supplies P → P t → P u) → s.Supplies P → P t → P u :=
    fun _ _ _ h => h.2
  induction hu with
  | stop _ => exact ht
  | go hr _ _ ih => exact ih (hr.hereditary hP hN hs ht)

/-- Not only do normal forms have the property, but all that is brought to normal form on the
way. -/
theorem invariant_hereditary (hP : Term.Hereditary P) :
    Invariant π (NormalForm π) fun s t => s.Supplies P ∧ P t := by
  have hN : ∀ s t u, NormalForm π s t u → s.Supplies P → P t → P u :=
    fun _ _ _ h => h.hereditary hP
  constructor
  · rintro s s' t u ⟨hs, ht⟩ hn
    cases hn with
    | element hu => exact ⟨hs, hP.element ht u hu⟩
    | rule he hr hn =>
        have ht' := he.hereditary hP (fun t u h => hN s t u h hs) ht
        exact hn.hereditary hP hN hs (hs.of_mem hr) ht'
  · rintro s t u ⟨hs, ht⟩ hr
    exact ⟨hs, hr.hereditary hP hN hs ht⟩

/-! ## Evaluated programs -/

/-- The text says the term, and the engine answers with the term when it has interned the names. -/
def Engine.Reads (engine : Engine) (text : String) (t : Term) : Prop :=
  ∃ f, Form.parse text = .ok f ∧ ((f.share : Job Term).run engine).1 = some t

theorem run_internAll (as : List Atom) (engine : Engine) :
    ((internAll as : Job Unit).run engine).1 = some () := by
  induction as generalizing engine with
  | nil => rfl
  | cons a as ih => exact ih _

theorem run_share (f : Form) (engine : Engine) :
    ((f.share : Job Term).run engine).1 = some (.ofForm f) := by
  have h := run_internAll (Term.ofForm f).atoms engine
  rw [Form.share, Job.run_bind]
  generalize Job.run (internAll (Term.ofForm f).atoms) engine = run at h
  obtain ⟨_, engine⟩ := run
  cases h
  rfl

theorem Engine.reads_iff {engine : Engine} {text : String} :
    engine.Reads text t ↔ (Form.parse text).map Term.ofForm = .ok t := by
  simp only [Reads, run_share, Option.some.injEq]
  cases Form.parse text <;> simp [Except.map]

theorem Engine.Reads.exists_form {engine : Engine} {text : String} (h : engine.Reads text t) :
    ∃ f : Form, f.Spellable ∧ t = .ofForm f := by
  obtain ⟨f, hf, ht⟩ := h
  rw [run_share] at ht
  exact ⟨f, Form.spellable_of_parse hf, (Option.some.inj ht).symm⟩

theorem Engine.reads_text (engine : Engine) (hc : t.Collapsed) (hs : t.Spellable) :
    engine.Reads t.text t := by
  rw [reads_iff, Term.parse_text hs]
  exact congrArg Except.ok (Term.ofForm_toForm hc)

/-- Normal forms of programs can be written like programs. -/
theorem NormalForm.collapsed_spellable {f : Form} (h : NormalForm π (.base π) (.ofForm f) u)
    (hf : f.Spellable) : u.Collapsed ∧ u.Spellable := by
  have hatoms : ∀ a ∈ u.atoms, a ∈ (Term.ofForm f).atoms :=
    h.hereditary (Term.hereditary_atoms _) Scope.supplies_base fun _ ha => ha
  have hc : u.Collapsed :=
    h.hereditary Term.hereditary_collapsed Scope.supplies_base (Term.collapsed_ofForm f)
  exact ⟨hc, fun a ha => Term.spellable_ofForm f hf a (hatoms a ha)⟩

/-- What a program is evaluated to holds no atoms other than those of the program and no sequence of
a single element, and its text is read as what it was printed for. -/
theorem evaluation_readable {reader engine : Engine} {text : String} (ht : reader.Reads text t)
    (h : engine.Filled π) (hu : engine.Answers π (.evaluate t) u) :
    (∀ a ∈ u.atoms, a ∈ t.atoms) ∧ u.Collapsed ∧
      ∀ engine' : Engine, engine'.Reads u.text u := by
  obtain ⟨f, hf, rfl⟩ := ht.exists_form
  have hn : NormalForm π (.base π) (.ofForm f) u := h.normalizes_iff.mp hu
  have hatoms : ∀ a ∈ u.atoms, a ∈ (Term.ofForm f).atoms :=
    hn.hereditary (Term.hereditary_atoms _) Scope.supplies_base fun _ ha => ha
  obtain ⟨hc, hs⟩ := hn.collapsed_spellable hf
  exact ⟨hatoms, hc, fun engine' => engine'.reads_text hc hs⟩

/-- There is a group of one element in the body of the rule, and a marked atom. -/
private def quotingProgram : String := "[[f 'x] -> [g x ['y]] [f [h []]]]"

theorem evaluation_readable_quoted : ∃ t u : Term,
    Engine.Reads {} quotingProgram t ∧ Engine.Filled .standard {} ∧
    Engine.Answers .standard {} (.evaluate t) u ∧ u.text = "[g [h []] 'y]" ∧
    ∀ engine : Engine, engine.Reads "[g [h []] 'y]" u := by
  let t : Term := .ofForm (.group [.group [.word "f", .quoted "x"], .word "->",
    .group [.word "g", .word "x", .quoted "y"], .group [.word "f", .group [.word "h", .group []]]])
  let u : Term := .ofForm (.group [.word "g", .group [.word "h", .group []], .quoted "y"])
  have h : Engine.Filled .standard {} := .fresh
  have ht : Engine.Reads {} quotingProgram t := Engine.reads_iff.mpr (by decide +kernel)
  have hu : Engine.Answers .standard {} (.evaluate t) u :=
    h.normalizes_iff.mpr ⟨8, by decide +kernel⟩
  have htext : u.text = "[g [h []] 'y]" := by decide +kernel
  obtain ⟨_, _, hreads⟩ := evaluation_readable ht h hu
  exact ⟨t, u, ht, h, hu, htext, htext ▸ hreads⟩

end ScopedRewriting
