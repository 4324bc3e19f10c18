import ScopedRewriting.Proofs.Directives
import ScopedRewriting.Proofs.Vocabulary

/-!
# Patterns and the terms that they are made from

A term without directives makes a pattern, from which the term can be told. So different terms make
different patterns, and a pattern is written like its term (`pattern_reversible`).
-/

namespace ScopedRewriting

namespace Pattern

/-! ## From terms to patterns -/

theorem ofTerm?_seq_eq_some_iff {ts : List Term} {p : Pattern} :
    ofTerm? (.seq ts) = some p ↔
      (Term.seq ts).directive? = none ∧ ∃ ps, ofTerms? ts = some ps ∧ p = .seq ps := by
  rw [ofTerm?]
  cases (Term.seq ts).directive? <;> simp [eq_comm]

theorem ofTerms?_eq_some_iff {ts : List Term} {ps : List Pattern} :
    ofTerms? ts = some ps ↔ List.Forall₂ (fun t p => ofTerm? t = some p) ts ps := by
  induction ts generalizing ps with
  | nil => simp [ofTerms?, eq_comm]
  | cons t ts ih =>
      rw [ofTerms?, List.forall₂_cons_left_iff]
      cases ofTerm? t with
      | none => simp
      | some p => simp [ih, eq_comm]

theorem directiveFree_of_ofTerm? {t : Term} {p : Pattern} (h : ofTerm? t = some p) :
    t.DirectiveFree := by
  induction t using Term.induct generalizing p with
  | atom a => exact Term.directiveFree_atom a
  | seq ts ih =>
      obtain ⟨hd, ps, hps, rfl⟩ := ofTerm?_seq_eq_some_iff.mp h
      refine Term.directiveFree_seq_iff.mpr ⟨hd, fun t ht => ?_⟩
      obtain ⟨q, _, hq⟩ := forall₂_mem_left (ofTerms?_eq_some_iff.mp hps) ht
      exact ih t ht hq

theorem ofTerm?_eq_none_iff {t : Term} :
    ofTerm? t = none ↔ ∃ u, Term.Subterm u t ∧ u.directive?.isSome := by
  have hfree : (∃ u, Term.Subterm u t ∧ u.directive?.isSome) ↔ ¬ t.DirectiveFree := by
    simp [Term.DirectiveFree, Option.isSome_iff_ne_none]
  rw [hfree]
  constructor
  · intro hnone hfree
    simpa [hnone] using isSome_ofTerm? t hfree
  · intro h
    cases hp : ofTerm? t with
    | none => rfl
    | some p => exact absurd (directiveFree_of_ofTerm? hp) h

/-! ## From patterns to terms -/

theorem toTerms_eq_map (ps : List Pattern) : toTerms ps = ps.map toTerm := by
  induction ps with
  | nil => rfl
  | cons p ps ih => simp [toTerms, ih]

theorem toTerm_ofAtom (a : Atom) : (ofAtom a).toTerm = .atom a := by
  unfold ofAtom
  split
  · rfl
  · next v hv =>
      rw [Atom.unmarked?_eq_some_iff.mp hv]
      split
      · next hjoker => rw [hjoker, toTerm]
      · rfl

theorem toTerm_of_ofTerm? {t : Term} {p : Pattern} (h : ofTerm? t = some p) : p.toTerm = t := by
  induction t using Term.induct generalizing p with
  | atom a =>
      cases h
      exact toTerm_ofAtom a
  | seq ts ih =>
      obtain ⟨_, ps, hps, rfl⟩ := ofTerm?_seq_eq_some_iff.mp h
      have hback : List.Forall₂ (fun t q => t = q.toTerm) ts ps :=
        ((List.forall₂_and_left ts ps).mpr ⟨ih, ofTerms?_eq_some_iff.mp hps⟩).imp
          fun t q h => (h.1 h.2).symm
      rw [← List.forall₂_map_right_iff, List.forall₂_eq_eq_eq] at hback
      rw [toTerm, toTerms_eq_map, ← hback]

mutual
/-- Patterns are written like the terms that say them. -/
theorem text_toTerm : (p : Pattern) → p.toTerm.text = p.text
  | .lit _ | .var _ | .joker => rfl
  | .seq ps => congrArg bracketed (texts_toTerms ps)

theorem texts_toTerms : (ps : List Pattern) → Term.texts (toTerms ps) = texts ps
  | [] => rfl
  | p :: ps => congrArg₂ List.cons (text_toTerm p) (texts_toTerms ps)
end

end Pattern

/-! ## Patterns that are made by engines -/

theorem run_create (t : Term) (engine : Engine) :
    ((Pattern.create t : Job (Option Pattern)).run engine).1 = some (Pattern.ofTerm? t) := by
  have h := run_internAll (Pattern.varsBeforeDirective t) engine
  rw [Pattern.create, Job.run_bind]
  generalize Job.run (internAll (Pattern.varsBeforeDirective t)) engine = run at h
  obtain ⟨_, engine⟩ := run
  cases h
  rfl

/-- Whatever an engine has interned, it makes a pattern of each term in which there is no directive,
and of no other term. The pattern is written like the term, and it is turned back into that term, so
that no engine makes it of another one. -/
theorem pattern_reversible (engine : Engine) (t : Term) :
    ∃ p? : Option Pattern, ((Pattern.create t : Job _).run engine).1 = some p? ∧
      (p? = none ↔ ∃ u, Term.Subterm u t ∧ u.directive?.isSome) ∧
      ∀ p, p? = some p → p.toTerm = t ∧ p.text = t.text ∧
        ∀ (engine' : Engine) (u : Term),
          ((Pattern.create u : Job _).run engine').1 = some (some p) → u = t := by
  refine ⟨Pattern.ofTerm? t, run_create t engine, Pattern.ofTerm?_eq_none_iff, fun p hp => ?_⟩
  have ht : p.toTerm = t := Pattern.toTerm_of_ofTerm? hp
  refine ⟨ht, by rw [← ht, Pattern.text_toTerm], fun engine' u hu => ?_⟩
  rw [run_create, Option.some.injEq] at hu
  rw [← ht, Pattern.toTerm_of_ofTerm? hu]

/-- A joker, a variable that is named like one, a variable without a name and an atom. -/
private def quotedPattern : Pattern := .seq [.joker, .var ⟨"'_"⟩, .var ⟨""⟩, .lit .joker]

theorem pattern_reversible_quotes : ∃ t : Term,
    ((Pattern.create t : Job _).run {}).1 = some (some quotedPattern) ∧
    quotedPattern.toTerm = t ∧ quotedPattern.text = "['_ ''_ ' _]" ∧
    ∀ (engine : Engine) (u : Term),
      ((Pattern.create u : Job _).run engine).1 = some (some quotedPattern) → u = t := by
  let t : Term := .seq [.atom ⟨"'_"⟩, .atom ⟨"''_"⟩, .atom ⟨"'"⟩, .atom ⟨"_"⟩]
  have hp : Pattern.ofTerm? t = some quotedPattern := by decide +kernel
  have hrun : ((Pattern.create t : Job _).run {}).1 = some (some quotedPattern) := by
    rw [run_create, hp]
  obtain ⟨p?, hp?, _, hback⟩ := pattern_reversible {} t
  rw [hrun, Option.some.injEq] at hp?
  obtain ⟨hterm, htext, hunique⟩ := hback quotedPattern hp?.symm
  exact ⟨t, hrun, hterm, htext.trans (by decide +kernel), hunique⟩

end ScopedRewriting
