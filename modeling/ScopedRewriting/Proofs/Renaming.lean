import ScopedRewriting.Proofs.Matching
import ScopedRewriting.Scope.Renaming

/-!
# Matching renamed terms

To make a pattern of a term and to match a term against a pattern are the same before and after a
renaming of atoms (`Pattern.ofTerm?_rename`, `Pattern.match?_rename`).
-/

namespace ScopedRewriting

variable {f : Atom → Atom}

theorem Atom.Renaming.unmarked?_eq (hf : Renaming f) (a : Atom) :
    (f a).unmarked? = a.unmarked?.map f := by
  cases ha : a.unmarked? with
  | some v => rw [unmarked?_eq_some_iff.mp ha, hf.marked, unmarked?_marked, Option.map_some]
  | none =>
      have hnone : ¬ (f a).unmarked?.isSome := fun h => by simpa [ha] using hf.unmarked h
      simpa using hnone

theorem Atom.renaming_id : Renaming id where
  injective := Function.injective_id
  arrow := rfl
  joker := rfl
  marked _ := rfl
  unmarked h := h

/-! ## Terms -/

namespace Term

mutual
theorem eq_of_rename (hf : Function.Injective f) :
    (t u : Term) → t.rename f = u.rename f → t = u
  | .atom a, .atom b, h => by simpa [rename, hf.eq_iff] using h
  | .seq ts, .seq us, h => by
      rw [rename, rename, seq.injEq] at h
      rw [eq_of_renameAll hf ts us h]
  | .atom _, .seq _, h => by simp [rename] at h
  | .seq _, .atom _, h => by simp [rename] at h

theorem eq_of_renameAll (hf : Function.Injective f) :
    (ts us : List Term) → renameAll f ts = renameAll f us → ts = us
  | [], [], _ => rfl
  | t :: ts, u :: us, h => by
      simp only [renameAll, List.cons.injEq] at h
      rw [eq_of_rename hf t u h.1, eq_of_renameAll hf ts us h.2]
  | [], _ :: _, h => by simp [renameAll] at h
  | _ :: _, [], h => by simp [renameAll] at h
end

theorem rename_inj (hf : Function.Injective f) {t u : Term} : t.rename f = u.rename f ↔ t = u :=
  ⟨eq_of_rename hf t u, congrArg (rename f)⟩

@[simp]
theorem rename_id (t : Term) : t.rename id = t := by
  induction t using induct with
  | atom a => rfl
  | seq ts ih => simp [rename, renameAll_eq_map, List.map_congr_left ih]

theorem rename_group (ts : List Term) : (group ts).rename f = group (ts.map (rename f)) := by
  by_cases hlen : ts.length = 1
  · obtain ⟨t, rfl⟩ := List.length_eq_one_iff.mp hlen
    rfl
  · rw [group_eq_seq hlen, group_eq_seq (by simpa using hlen), rename, renameAll_eq_map]

theorem rename_eq_atom_iff (hf : Function.Injective f) {t : Term} {a : Atom} :
    t.rename f = .atom (f a) ↔ t = .atom a := by
  rw [← rename, rename_inj hf]

theorem Directive.toTerm_rename (hf : Atom.Renaming f) (d : Directive) :
    (d.rename f).toTerm = d.toTerm.rename f := by
  simp [toTerm, rename, Term.rename, renameAll, hf.arrow]

theorem exists_directive_of_rename (hf : Atom.Renaming f) {t : Term} {d' : Directive}
    (h : t.rename f = d'.toTerm) : ∃ d, t = Directive.toTerm d := by
  cases t with
  | atom a => simp [rename, Directive.toTerm] at h
  | seq ts =>
      simp only [rename, renameAll_eq_map, Directive.toTerm, seq.injEq, List.map_eq_cons_iff,
        List.map_eq_nil_iff] at h
      obtain ⟨p, _, rfl, _, x, _, rfl, hx, r, _, rfl, _, u, _, rfl, _, rfl⟩ := h
      rw [← hf.arrow, rename_eq_atom_iff hf.injective] at hx
      exact ⟨⟨p, r, u⟩, by rw [hx, Directive.toTerm]⟩

theorem directive?_rename (hf : Atom.Renaming f) (t : Term) :
    (t.rename f).directive? = t.directive?.map (Directive.rename f) := by
  cases hd : t.directive? with
  | some d =>
      rw [directive?_eq_some_iff.mp hd, ← Directive.toTerm_rename hf]
      exact directive?_eq_some_iff.mpr rfl
  | none =>
      refine Option.eq_none_iff_forall_ne_some.mpr fun d' hd' => ?_
      obtain ⟨d, rfl⟩ := exists_directive_of_rename hf (directive?_eq_some_iff.mp hd')
      rw [directive?_eq_some_iff.mpr rfl] at hd
      cases hd

end Term

/-! ## Patterns -/

namespace Pattern

mutual
@[simp]
theorem rename_id : (p : Pattern) → p.rename id = p
  | .lit _ | .var _ | .joker => rfl
  | .seq ps => by rw [rename, renameAll_id ps]

theorem renameAll_id : (ps : List Pattern) → renameAll id ps = ps
  | [] => rfl
  | p :: ps => by rw [renameAll, rename_id p, renameAll_id ps]
end

theorem ofAtom_rename (hf : Atom.Renaming f) (a : Atom) : ofAtom (f a) = (ofAtom a).rename f := by
  unfold ofAtom
  rw [hf.unmarked?_eq]
  cases a.unmarked? with
  | none => rfl
  | some v =>
      have hv : f v = .joker ↔ v = .joker := by rw [← hf.joker, hf.injective.eq_iff, hf.joker]
      by_cases h : v = .joker <;> simp [hv, h, rename, hf.joker]

mutual
theorem ofTerm?_rename (hf : Atom.Renaming f) :
    (t : Term) → ofTerm? (t.rename f) = (ofTerm? t).map (rename f)
  | .atom a => by simp [Term.rename, ofTerm?, ofAtom_rename hf]
  | .seq ts => by
      have hd := Term.directive?_rename hf (.seq ts)
      rw [Term.rename] at hd ⊢
      rw [ofTerm?, ofTerm?, hd]
      cases (Term.seq ts).directive? with
      | some d => rfl
      | none => simp [ofTerms?_rename hf ts, Function.comp_def, rename]

theorem ofTerms?_rename (hf : Atom.Renaming f) :
    (ts : List Term) → ofTerms? (Term.renameAll f ts) = (ofTerms? ts).map (renameAll f)
  | [] => rfl
  | t :: ts => by
      rw [Term.renameAll, ofTerms?, ofTerms?, ofTerm?_rename hf t, ofTerms?_rename hf ts]
      cases ofTerm? t with
      | none => rfl
      | some p => simp [Function.comp_def, renameAll]
end

end Pattern

/-! ## Bindings -/

namespace Bindings

theorem get?_rename (hf : Function.Injective f) (b : Bindings) (v : Atom) :
    (b.rename f).get? (f v) = (b.get? v).map (Term.rename f) := by
  unfold rename get?
  induction b.entries with
  | nil => rfl
  | cons e es ih =>
      change (insert _ (f e.1) (e.2.rename f)).get? (f v) = _
      simp only [get?_insert, Entries.lookup, hf.eq_iff]
      split
      · rfl
      · exact ih

theorem get?_rename_of_forall_ne {b : Bindings} {w : Atom} (h : ∀ v, f v ≠ w) :
    (b.rename f).get? w = none := by
  unfold rename get?
  induction b.entries with
  | nil => rfl
  | cons e es ih =>
      change (insert _ (f e.1) (e.2.rename f)).get? w = none
      rw [get?_insert, if_neg (h e.1)]
      exact ih

/-- Bindings are those of the renamed variables if they bind these like the others, and nothing
else. -/
theorem eq_rename (hf : Function.Injective f) {b c : Bindings}
    (h : ∀ v, c.get? (f v) = (b.get? v).map (Term.rename f))
    (hnone : ∀ w, (∀ v, f v ≠ w) → c.get? w = none) : c = b.rename f := by
  refine ext_get? fun w => ?_
  by_cases hw : ∃ v, f v = w
  · obtain ⟨v, rfl⟩ := hw
    rw [h, get?_rename hf]
  · rw [not_exists] at hw
    rw [hnone w hw, get?_rename_of_forall_ne hw]

@[simp]
theorem rename_empty (f : Atom → Atom) : empty.rename f = empty := rfl

theorem rename_single (hf : Function.Injective f) (v : Atom) (t : Term) :
    (single v t).rename f = single (f v) (t.rename f) := by
  refine (eq_rename hf (fun w => ?_) fun w hw => ?_).symm
  · simp only [single, get?_insert, get?_empty, hf.eq_iff]
    split <;> rfl
  · simp [single, hw v]

theorem agree_rename_iff (hf : Function.Injective f) {a b : Bindings} :
    (a.rename f).Agree (b.rename f) ↔ a.Agree b := by
  constructor
  · intro h v t u ht hu
    refine (Term.rename_inj hf).mp (h (f v) (t.rename f) (u.rename f) ?_ ?_)
    · rw [get?_rename hf, ht, Option.map_some]
    · rw [get?_rename hf, hu, Option.map_some]
  · intro h w t' u' ht hu
    by_cases hw : ∃ v, f v = w
    · obtain ⟨v, rfl⟩ := hw
      rw [get?_rename hf, Option.map_eq_some_iff] at ht hu
      obtain ⟨t, ht, rfl⟩ := ht
      obtain ⟨u, hu, rfl⟩ := hu
      rw [h v t u ht hu]
    · rw [get?_rename_of_forall_ne (not_exists.mp hw)] at ht
      cases ht

theorem merge_rename (hf : Function.Injective f) (a b : Bindings) :
    (a.rename f).merge (b.rename f) = (a.merge b).map (rename f) := by
  by_cases h : a.Agree b
  · rw [h.merge_eq, ((agree_rename_iff hf).mpr h).merge_eq, Option.map_some, Option.some.injEq]
    refine eq_rename hf (fun v => ?_) fun w hw => ?_
    · simp only [get?_union, get?_rename hf, Option.map_or]
    · simp only [get?_union, get?_rename_of_forall_ne hw, Option.or_none]
  · rw [merge_eq_none h, merge_eq_none (mt (agree_rename_iff hf).mp h), Option.map_none]

end Bindings

/-! ## Matches -/

namespace Pattern

mutual
theorem match?_rename (hf : Function.Injective f) : (p : Pattern) → (t : Term) →
    (p.rename f).match? (t.rename f) = (p.match? t).map (Bindings.rename f)
  | .lit a, .atom b => by
      simp only [rename, Term.rename, match?, hf.eq_iff]
      split <;> simp
  | .lit _, .seq _ => by simp [rename, Term.rename, match?]
  | .var v, t => by simp [rename, match?, Bindings.rename_single hf]
  | .joker, t => by rw [rename, match?, match?, Option.map_some, Bindings.rename_empty]
  | .seq ps, .seq ts => by
      rw [rename, Term.rename, match?, match?]
      exact Bindings.rename_empty f ▸ matchAll?_rename hf .empty ps ts
  | .seq _, .atom _ => by simp [rename, Term.rename, match?]

theorem matchAll?_rename (hf : Function.Injective f) : (acc : Bindings) → (ps : List Pattern) →
    (ts : List Term) → matchAll? (acc.rename f) (renameAll f ps) (Term.renameAll f ts) =
      (matchAll? acc ps ts).map (Bindings.rename f)
  | acc, [], [] => by simp [renameAll, Term.renameAll, matchAll?]
  | acc, p :: ps, t :: ts => by
      rw [renameAll, Term.renameAll, matchAll?, matchAll?, match?_rename hf p t]
      cases p.match? t with
      | none => rfl
      | some b =>
          dsimp only [Option.map_some]
          rw [Bindings.merge_rename hf]
          cases acc.merge b with
          | none => rfl
          | some acc => exact matchAll?_rename hf acc ps ts
  | _, [], _ :: _ => by simp [renameAll, Term.renameAll, matchAll?]
  | _, _ :: _, [] => by simp [renameAll, Term.renameAll, matchAll?]
end

end Pattern

end ScopedRewriting
