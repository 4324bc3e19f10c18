import ScopedRewriting.Proofs.Matching
import ScopedRewriting.Proofs.Memory
import ScopedRewriting.Proofs.Scopes
import ScopedRewriting.Term.Substitution

/-!
# Replacing variables by rewriting

The scope of a match goes on replacing variables in the terms that it has put in their place. So it
replaces all of them at once only if no variable is matched by a term that holds variables
(`simultaneous_substitution_iff`), and it may replace them forever.
-/

namespace ScopedRewriting

/-- What the variables of the term are bound to holds no atom that is bound in turn, other than to
itself. -/
def Bindings.CaptureFree (b : Bindings) (t : Term) : Prop :=
  ∀ a ∈ t.atoms, ∀ u ∈ b.get? a, ∀ x ∈ u.atoms, ∀ v ∈ b.get? x, v = .atom x

instance (b : Bindings) (t : Term) : Decidable (b.CaptureFree t) :=
  inferInstanceAs (Decidable (∀ a ∈ t.atoms, ∀ u ∈ b.get? a, ∀ x ∈ u.atoms, ∀ v ∈ b.get? x,
    v = .atom x))

/-- Replacing `a` leads to a term in which `x` occurs. -/
def Bindings.Needs (b : Bindings) (x a : Atom) : Prop :=
  ∃ u, b.get? a = some u ∧ u ≠ .atom a ∧ x ∈ u.atoms

/-- Atoms of the term cannot be replaced one after the other forever. -/
def Bindings.Grounded (b : Bindings) (t : Term) : Prop :=
  ∀ a ∈ t.atoms, Acc b.Needs a

/-- Nothing in the term is left to be replaced. -/
def Term.Final (b : Bindings) (t : Term) : Prop :=
  t.Collapsed ∧ t.substitute b = t

variable {π π' : Policy} {N : Normalization} {s : Scope} {b : Bindings} {t u : Term}

/-! ## Replacing all variables at once -/

/-- Variables are captured if and only if replacing them a second time changes the term. -/
theorem captureFree_iff :
    b.CaptureFree t ↔ (t.substitute b).substitute b = t.substitute b := by
  rw [Term.substitute_eq_self_iff]
  constructor
  · intro h x hx v hv
    obtain ⟨a, ha, hx⟩ := Term.mem_atoms_substitute_iff.mp hx
    cases hu : b.get? a with
    | none =>
        simp only [Term.substitute, hu, Option.getD_none, Term.atoms, List.mem_singleton] at hx
        subst hx
        simp [hu] at hv
    | some u =>
        simp only [Term.substitute, hu, Option.getD_some] at hx
        exact h a ha u hu x hx v hv
  · intro h a ha u hu x hx v hv
    refine h x (Term.mem_atoms_substitute_iff.mpr ⟨a, ha, ?_⟩) v hv
    simpa [Term.substitute, Option.mem_def.mp hu] using hx

/-! ## Final terms -/

theorem Term.final_seq_iff {ts : List Term} :
    (seq ts).Final b ↔ ts.length ≠ 1 ∧ ∀ t ∈ ts, t.Final b := by
  rw [Final, collapsed_seq_iff, substitute, substituteAll_eq_map, seq.injEq,
    map_substitute_eq_self_iff]
  simp only [Final, forall_and, and_assoc]

theorem Term.final_group {ts : List Term} (h : ∀ t ∈ ts, t.Final b) : (group ts).Final b :=
  group_of h fun hlen => final_seq_iff.mpr ⟨hlen, h⟩

/-! ## The steps in the scope of a match

The policy under which the scope was made may be another one than that of the engine. -/

theorem AppliesFirst.eq_of_ofBindings {u? : Option Term}
    (h : AppliesFirst π N s t (Scope.ofBindings π' b).rules u?) : u? = t.atom?.bind b.get? := by
  cases u? with
  | some u =>
      obtain ⟨r, hm, hr⟩ := h.exists_mem
      obtain ⟨⟨a, v⟩, he, rfl⟩ := Scope.mem_rules_ofBindings.mp hm
      cases hr with
      | replace ht => simp [ht, Term.atom?, Bindings.get?_eq_some_iff.mpr he]
  | none =>
      cases t with
      | seq ts => rfl
      | atom a =>
          cases hu : b.get? a with
          | none => simp [Term.atom?, hu]
          | some u =>
              have he := Bindings.get?_eq_some_iff.mp hu
              cases h.none_of_mem _ (Scope.mem_rules_ofBindings.mpr ⟨(a, u), he, rfl⟩) with
              | keep hne => exact absurd rfl hne

theorem appliesFirst_ofBindings :
    AppliesFirst π N s t (Scope.ofBindings π' b).rules (t.atom?.bind b.get?) := by
  have hrules : ∀ r ∈ (Scope.ofBindings π' b).rules, ∃ u?, Applies π N s t r u? := by
    intro r hr
    obtain ⟨⟨a, v⟩, _, rfl⟩ := Scope.mem_rules_ofBindings.mp hr
    by_cases ht : t = .atom a
    · exact ⟨some v, .replace ht⟩
    · exact ⟨none, .keep ht⟩
  obtain ⟨u?, hu⟩ := exists_appliesFirst hrules
  exact hu.eq_of_ofBindings ▸ hu

theorem forgetful_applyFirst_ofBindings (norm : Normalizer Job) :
    Job.forgetful (applyFirst π norm s t (Scope.ofBindings π' b).rules) =
      some (t.atom?.bind b.get?) := by
  have h : ∀ᶠ _ in (pure () : Filter Unit),
      Job.forgetful (applyFirst π norm s t (Scope.ofBindings π' b).rules) =
        some (t.atom?.bind b.get?) :=
    forgetful_applyFirst (fun _ _ _ => False.elim) appliesFirst_ofBindings
  simpa using h

/-- Rules that replace an atom by a term make no requests. -/
theorem applyFirst_ofBindings (norm : Normalizer Job) :
    applyFirst π norm s t (Scope.ofBindings π' b).rules = .done (t.atom?.bind b.get?) := by
  have hdone (rs : List Rule) (h : ∀ r ∈ rs, ∃ a u, r = .subst a u) :
      ∃ u?, applyFirst π norm s t rs = .done u? := by
    induction rs with
    | nil => exact ⟨none, rfl⟩
    | cons r rs ih =>
        obtain ⟨⟨a, u, rfl⟩, hrs⟩ := List.forall_mem_cons.mp h
        by_cases ht : t = .atom a
        · exact ⟨some u, by simp [applyFirst, Rule.apply, ht]⟩
        · simpa [applyFirst, Rule.apply, ht] using ih hrs
  obtain ⟨u?, hu⟩ := hdone (Scope.ofBindings π' b).rules fun r hr =>
    (Scope.Replacing.intro b).mem_rules hr
  have hforgetful : Job.forgetful (applyFirst π norm s t (Scope.ofBindings π' b).rules) = _ :=
    forgetful_applyFirst_ofBindings norm
  rw [hu] at hforgetful ⊢
  exact congrArg Job.done (Option.some.inj hforgetful)

theorem reduces_ofBindings_iff : Reduces π N (.ofBindings π' b) t u ↔
    ∃ t', Elementwise N (.ofBindings π' b) t t' ∧ u = (t'.atom?.bind b.get?).getD t' := by
  constructor
  · intro h
    cases h with
    | apply he hr => exact ⟨_, he, by simp [← hr.eq_of_ofBindings]⟩
    | keep he hr => exact ⟨u, he, by simp [← hr.eq_of_ofBindings]⟩
  · rintro ⟨t', he, rfl⟩
    have hr : AppliesFirst π N (.ofBindings π' b) t' (Scope.ofBindings π' b).rules _ :=
      appliesFirst_ofBindings
    cases hu : t'.atom?.bind b.get? with
    | none =>
        rw [hu] at hr
        exact .keep he hr
    | some u =>
        rw [hu] at hr
        exact .apply he hr

theorem reduces_atom_iff {a : Atom} :
    Reduces π N (.ofBindings π' b) (.atom a) u ↔ u = (Term.atom a).substitute b := by
  rw [reduces_ofBindings_iff]
  constructor
  · rintro ⟨t', he, rfl⟩
    cases he with
    | atom => rfl
  · rintro rfl
    exact ⟨.atom a, .atom a, rfl⟩

theorem Term.Final.getD_get? (h : t.Final b) : (t.atom?.bind b.get?).getD t = t := by
  cases t with
  | atom a => exact h.2
  | seq ts => rfl

theorem Elementwise.final (hN : ∀ t u, N s t u → u.Final b) {ts : List Term}
    (h : Elementwise N s (.seq ts) u) : u.Final b := by
  obtain ⟨us, hts, rfl⟩ := elementwise_seq_iff.mp h
  refine Term.final_group fun u hu => ?_
  obtain ⟨t, _, htu⟩ := forall₂_mem_right hts hu
  exact hN t u htu

theorem Reduces.of_elementwise_final (h : Elementwise N (.ofBindings π' b) t u) (hu : u.Final b) :
    Reduces π N (.ofBindings π' b) t u :=
  reduces_ofBindings_iff.mpr ⟨u, h, hu.getD_get?.symm⟩

/-! ## Normal forms in the scope of a match -/

theorem NormalForm.final (h : NormalForm π (.ofBindings π' b) t u) : u.Final b := by
  refine NormalForm.induct (P := fun s _ u => s = .ofBindings π' b → u.Final b) ?_ h rfl
  rintro s t u hu rfl
  obtain ⟨u', he, heq⟩ := reduces_ofBindings_iff.mp hu.fixed
  cases u with
  | atom a =>
      cases he with
      | atom => exact ⟨Term.collapsed_atom a, heq.symm⟩
  | seq us =>
      -- the elements are final, so no rule is left for the sequence of them
      have hu' : u'.Final b := he.final fun t u htu => htu.2 rfl
      rw [heq, hu'.getD_get?]
      exact hu'

theorem Term.Final.normalForm (h : t.Final b) : NormalForm π (.ofBindings π' b) t t := by
  induction t using Term.induct with
  | atom a => exact normalForm_iff.mpr (.stop (reduces_atom_iff.mpr h.2.symm))
  | seq ts ih =>
      obtain ⟨hlen, hts⟩ := final_seq_iff.mp h
      have he : Elementwise (NormalForm π) (.ofBindings π' b) (seq ts) (seq ts) :=
        (elementwise_seq_self_iff hlen).mpr fun t ht => ih t ht (hts t ht)
      exact normalForm_iff.mpr (.stop (.of_elementwise_final he h))

theorem normalForm_of_elementwise {ts : List Term}
    (h : Elementwise (NormalForm π) (.ofBindings π' b) (.seq ts) u) :
    NormalForm π (.ofBindings π' b) (.seq ts) u := by
  have hu : u.Final b := h.final fun _ _ htu => htu.final
  exact .of_reduces (.of_elementwise_final h hu) hu.normalForm

theorem normalForm_substitute (h : (t.substitute b).Final b) :
    NormalForm π (.ofBindings π' b) t (t.substitute b) := by
  induction t using Term.induct with
  | atom a => exact .of_reduces (reduces_atom_iff.mpr rfl) h.normalForm
  | seq ts ih =>
      rw [Term.substitute, Term.substituteAll_eq_map] at h ⊢
      obtain ⟨hlen, hts⟩ := Term.final_seq_iff.mp h
      rw [List.forall_mem_map] at hts
      have hus : List.Forall₂ (NormalForm π (.ofBindings π' b)) ts (ts.map (Term.substitute b)) :=
        List.forall₂_map_right_iff.mpr (List.forall₂_same.mpr fun t ht => ih t ht (hts t ht))
      exact normalForm_of_elementwise (.seq_of_length hus hlen)

theorem normalForm_substitute_iff : NormalForm π (.ofBindings π' b) t (t.substitute b) ↔
    (t.substitute b).Collapsed ∧ b.CaptureFree t := by
  rw [captureFree_iff]
  exact ⟨NormalForm.final, normalForm_substitute⟩

/-! ## Where replacing comes to an end -/

theorem Reduces.grounded (h : Reduces π N (.ofBindings π' b) t u)
    (hN : ∀ t u, N (.ofBindings π' b) t u → b.Grounded t) (hu : u ≠ t → b.Grounded u) :
    b.Grounded t := by
  intro a ha
  cases t with
  | atom a' =>
      cases List.mem_singleton.mp ha
      cases reduces_atom_iff.mp h
      refine .intro a fun x hx => ?_
      obtain ⟨v, hv, hne, hx⟩ := hx
      simp only [Term.substitute, hv, Option.getD_some] at hu
      exact hu hne x hx
  | seq ts =>
      obtain ⟨t', he, _⟩ := reduces_ofBindings_iff.mp h
      obtain ⟨us, hts, _⟩ := elementwise_seq_iff.mp he
      rw [Term.atoms, Term.atomsAll_eq_flatMap] at ha
      obtain ⟨t, ht, ha⟩ := List.mem_flatMap.mp ha
      obtain ⟨v, _, htv⟩ := forall₂_mem_left hts ht
      exact hN t v htv a ha

theorem NormalForm.grounded (h : NormalForm π (.ofBindings π' b) t u) : b.Grounded t := by
  refine NormalForm.induct (P := fun s t _ => s = .ofBindings π' b → b.Grounded t) ?_ h rfl
  rintro s t u hu rfl
  induction hu with
  | stop hr => exact hr.grounded (fun _ _ htu => htu.2 rfl) fun hne => absurd rfl hne
  | go hr _ _ ih => exact hr.grounded (fun _ _ htu => htu.2 rfl) fun _ => ih

theorem normalizing_of_atoms (h : ∀ a ∈ t.atoms, Normalizing π (.ofBindings π' b) (.atom a)) :
    Normalizing π (.ofBindings π' b) t := by
  induction t using Term.induct with
  | atom a => exact h a (by simp [Term.atoms])
  | seq ts ih =>
      have hts : ∀ t ∈ ts, Normalizing π (.ofBindings π' b) t := by
        refine fun t ht => ih t ht fun a ha => h a ?_
        rw [Term.atoms, Term.atomsAll_eq_flatMap]
        exact List.mem_flatMap.mpr ⟨t, ht, ha⟩
      obtain ⟨us, hus⟩ := exists_forall₂ hts
      exact ⟨_, normalForm_of_elementwise (.seq hus)⟩

theorem normalizing_atom {a : Atom} (h : Acc b.Needs a) :
    Normalizing π (.ofBindings π' b) (.atom a) := by
  induction h with
  | intro a _ ih =>
      have hr : Reduces π (NormalForm π) (.ofBindings π' b) (.atom a)
          ((Term.atom a).substitute b) :=
        reduces_atom_iff.mpr rfl
      by_cases heq : (Term.atom a).substitute b = .atom a
      · exact ⟨.atom a, Term.Final.normalForm ⟨Term.collapsed_atom a, heq⟩⟩
      · obtain ⟨u, hu⟩ : ∃ u, b.get? a = some u := by
          cases hu : b.get? a with
          | none => simp [Term.substitute, hu] at heq
          | some u => exact ⟨u, rfl⟩
        simp only [Term.substitute, hu, Option.getD_some] at hr heq
        obtain ⟨n, hn⟩ := normalizing_of_atoms (π := π) fun x hx => ih x ⟨u, hu, heq, hx⟩
        exact ⟨n, .of_reduces hr hn⟩

/-- Replacing comes to an end if and only if no variable of the term begins an endless chain of
variables that need one another. -/
theorem normalizing_iff_grounded : Normalizing π (.ofBindings π' b) t ↔ b.Grounded t := by
  constructor
  · rintro ⟨u, hu⟩
    exact hu.grounded
  · intro h
    exact normalizing_of_atoms fun a ha => normalizing_atom (h a ha)

theorem not_rel_self_of_acc {α : Type} {r : α → α → Prop} {a : α} (h : Acc r a) : ¬ r a a := by
  induction h with
  | intro a _ ih => exact fun ha => ih a ha ha

theorem not_grounded_of_needs_self {a : Atom} (ha : a ∈ t.atoms) (h : b.Needs a a) :
    ¬ b.Grounded t :=
  fun hb => not_rel_self_of_acc (hb a ha) h

/-! ## Applying a user-defined rule -/

/-- The variables of a body are replaced at once by the terms that they matched if and only if these
terms hold no variables in turn; replacing them comes to an end if and only if it does not lead from
variables to variables forever. If they are replaced at once, the rule yields what the outcome comes
to where the rule was declared. -/
theorem simultaneous_substitution_iff {engine : Engine} (h : engine.Filled π) {p : Pattern}
    {body t : Term} {b : Bindings} (hbody : body.Collapsed) (ht : t.Collapsed)
    (hm : p.match? t = some b) :
    (engine.Answers π (.normalize (.ofBindings π b) body) (body.substitute b) ↔
      b.CaptureFree body) ∧
    ((∃ u : Term, engine.Answers π (.normalize (.ofBindings π b) body) u) ↔ b.Grounded body) ∧
    (b.CaptureFree body → ∀ (c s : Scope) (u? : Option Term),
      engine.Answers π (.apply (.function p body c) s t) u? ↔
        ∃ u : Term, u? = some u ∧ engine.Answers π (.normalize c (body.substitute b)) u) := by
  have hc : (body.substitute b).Collapsed :=
    Term.collapsed_substitute hbody fun a u hu =>
      ht.of_subterm (Pattern.subterm_of_match? hu p t hm)
  refine ⟨?_, ?_, fun hfree c s u? => ?_⟩
  · rw [h.normalizes_iff, normalForm_substitute_iff]
    exact and_iff_right hc
  · simp only [h.normalizes_iff]
    exact normalizing_iff_grounded
  · have hbody : NormalForm π (.ofBindings π b) body (body.substitute b) :=
      normalForm_substitute_iff.mpr ⟨hc, hfree⟩
    simp only [h.applies_iff, h.normalizes_iff, applies_function_iff hm]
    constructor
    · rintro ⟨u, v, hu, hv, rfl⟩
      cases hu.unique hbody
      exact ⟨v, rfl, hv⟩
    · rintro ⟨v, rfl, hv⟩
      exact ⟨_, v, hbody, hv, rfl⟩

/-- `[f 'x 'y]` -/
private def twoArguments : Pattern :=
  .seq [.lit ⟨"f"⟩, .var ⟨"x"⟩, .var ⟨"y"⟩]

/-- `[g y x]` -/
private def swapped : Term :=
  .ofForm (.group [.word "g", .word "y", .word "x"])

/-- `[f [h 'x] B]`, where the mark makes another atom of the variable. -/
private def markedArgument : Term :=
  .ofForm (.group [.word "f", .group [.word "h", .quoted "x"], .word "B"])

theorem simultaneous_substitution_swaps : ∃ b, swapped.Collapsed ∧ markedArgument.Collapsed ∧
    twoArguments.match? markedArgument = some b ∧ b.CaptureFree swapped ∧
    Engine.Answers .standard {} (.normalize (.ofBindings .standard b) swapped)
      (swapped.substitute b) := by
  have hbody : swapped.Collapsed := Term.collapsed_ofForm _
  have ht : markedArgument.Collapsed := Term.collapsed_ofForm _
  obtain ⟨b, hm, hfree⟩ :
      ∃ b, twoArguments.match? markedArgument = some b ∧ b.CaptureFree swapped := by
    refine ⟨(twoArguments.match? markedArgument).get ?_, ?_, ?_⟩ <;> decide +kernel
  exact ⟨b, hbody, ht, hm, hfree, (simultaneous_substitution_iff .fresh hbody ht hm).1.mpr hfree⟩

/-- The body `[g x y]` -/
private def inOrder : Term :=
  .ofForm (.group [.word "g", .word "x", .word "y"])

/-- Where `[f 'x 'y]` matches `[f y A]`, the body `[g x y]` comes to `[g A A]`. Where `[f 'x]`
matches `[f [h x]]`, the body `x` does not come to an end. -/
theorem substitution_captures_variable : ∃ b c,
    twoArguments.match? (.seq [.atom ⟨"f"⟩, .atom ⟨"y"⟩, .atom ⟨"A"⟩]) = some b ∧
    inOrder.substitute b = .seq [.atom ⟨"g"⟩, .atom ⟨"y"⟩, .atom ⟨"A"⟩] ∧
    ¬ Engine.Answers .standard {} (.normalize (.ofBindings .standard b) inOrder)
      (inOrder.substitute b) ∧
    Engine.Answers .standard {} (.normalize (.ofBindings .standard b) inOrder)
      (.seq [.atom ⟨"g"⟩, .atom ⟨"A"⟩, .atom ⟨"A"⟩]) ∧
    (Pattern.seq [.lit ⟨"f"⟩, .var ⟨"x"⟩]).match?
      (.seq [.atom ⟨"f"⟩, .seq [.atom ⟨"h"⟩, .atom ⟨"x"⟩]]) = some c ∧
    ¬ ∃ u : Term, Engine.Answers .standard {}
      (.normalize (.ofBindings .standard c) (.atom ⟨"x"⟩)) u := by
  have h : Engine.Filled .standard {} := .fresh
  let b := (Bindings.single ⟨"x"⟩ (.atom ⟨"y"⟩)).insert ⟨"y"⟩ (.atom ⟨"A"⟩)
  let c := Bindings.single ⟨"x"⟩ (.seq [.atom ⟨"h"⟩, .atom ⟨"x"⟩])
  have hsub : inOrder.substitute b = .seq [.atom ⟨"g"⟩, .atom ⟨"y"⟩, .atom ⟨"A"⟩] := by
    decide +kernel
  have hcaptured : NormalForm .standard (.ofBindings .standard b) inOrder
      (.seq [.atom ⟨"g"⟩, .atom ⟨"A"⟩, .atom ⟨"A"⟩]) :=
    ⟨6, by decide +kernel⟩
  have hneeds : c.Needs ⟨"x"⟩ ⟨"x"⟩ := ⟨.seq [.atom ⟨"h"⟩, .atom ⟨"x"⟩], by decide +kernel⟩
  refine ⟨b, c, by decide +kernel, hsub, fun hb => ?_, h.normalizes_iff.mpr hcaptured,
    by decide +kernel, ?_⟩
  · have heq := hcaptured.unique (h.normalizes_iff.mp hb)
    rw [hsub] at heq
    simp at heq
  · rintro ⟨u, hu⟩
    exact not_grounded_of_needs_self (by simp [Term.atoms]) hneeds (h.normalizes_iff.mp hu).grounded

end ScopedRewriting
