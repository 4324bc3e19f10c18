import ScopedRewriting.Pattern.Match
import ScopedRewriting.Term.Subterm

/-!
# What matches bind

Bindings are determined by their entries, and a match binds variables to parts of the term that is
matched. The literals of the pattern occur in that term, too.
-/

namespace ScopedRewriting

/-! ## Entries -/

theorem Entries.mem_of_lookup {v : Atom} {t : Term} {es : Entries} (h : lookup v es = some t) :
    (v, t) ∈ es := by
  induction es with
  | nil => cases h
  | cons e es ih =>
      obtain ⟨w, u⟩ := e
      rw [lookup] at h
      split at h
      · next heq =>
          cases heq
          cases h
          simp
      · simp [ih h]

theorem Entries.Ascending.lookup_of_mem {v : Atom} {t : Term} {es : Entries} (hes : Ascending es)
    (h : (v, t) ∈ es) : lookup v es = some t := by
  induction es with
  | nil => cases h
  | cons e es ih =>
      obtain ⟨w, u⟩ := e
      obtain ⟨hlt, hes⟩ := List.pairwise_cons.mp hes
      rw [lookup]
      rcases List.mem_cons.mp h with heq | h
      · cases heq
        simp
      · have hne : w ≠ v := by
          rintro rfl
          exact String.lt_irrefl _ (hlt (_, t) h)
        rw [if_neg hne]
        exact ih hes h

theorem Bindings.get?_eq_some_iff {b : Bindings} {v : Atom} {t : Term} :
    b.get? v = some t ↔ (v, t) ∈ b.entries :=
  ⟨Entries.mem_of_lookup, b.ascending.lookup_of_mem⟩

theorem Bindings.isSome_get?_insert {b : Bindings} {v w : Atom} {t : Term} :
    ((b.insert v t).get? w).isSome ↔ w = v ∨ (b.get? w).isSome := by
  by_cases h : v = w
  · simp [h]
  · simp [h, Ne.symm h]

theorem Bindings.isSome_get?_single {v w : Atom} {t : Term} :
    ((single v t).get? w).isSome ↔ w = v := by
  rw [single, isSome_get?_insert]
  simp

/-! ## Merged bindings -/

/-- No variable is bound to one term by the first and to another by the second. -/
def Bindings.Agree (a b : Bindings) : Prop :=
  ∀ v t u, a.get? v = some t → b.get? v = some u → t = u

theorem Bindings.assign?_of_agree {b : Bindings} {v : Atom} {t : Term}
    (h : ∀ u, b.get? v = some u → u = t) :
    ∃ c, b.assign? v t = some c ∧
      ∀ w, c.get? w = (b.get? w).or (if v = w then some t else none) := by
  unfold assign?
  cases hu : b.get? v with
  | none =>
      refine ⟨_, rfl, fun w => ?_⟩
      rw [get?_insert]
      by_cases hw : v = w
      · subst hw
        simp [hu]
      · simp [hw]
  | some u =>
      cases h u hu
      refine ⟨b, by simp, fun w => ?_⟩
      by_cases hw : v = w
      · subst hw
        simp [hu]
      · simp [hw]

theorem Bindings.eq_of_assign? {b c : Bindings} {v : Atom} {t u : Term}
    (h : b.assign? v t = some c) (hu : b.get? v = some u) : u = t := by
  simp only [assign?, hu] at h
  split at h
  · next heq => exact heq.symm
  · cases h

theorem Bindings.get?_of_assign? {b c : Bindings} {v w : Atom} {t u : Term}
    (h : b.assign? v t = some c) (hu : b.get? w = some u) : c.get? w = some u := by
  obtain ⟨c', hc, hget⟩ := assign?_of_agree fun u' hu' => eq_of_assign? h hu'
  cases h.symm.trans hc
  simp [hget, hu]

theorem Bindings.foldlM_assign?_of_agree {es : Entries} (hes : es.Ascending) {b : Bindings}
    (h : ∀ v t u, b.get? v = some t → Entries.lookup v es = some u → t = u) :
    ∃ c, es.foldlM (fun c e => c.assign? e.1 e.2) b = some c ∧
      ∀ w, c.get? w = (b.get? w).or (Entries.lookup w es) := by
  induction es generalizing b with
  | nil => exact ⟨b, rfl, fun w => by simp [Entries.lookup]⟩
  | cons e es ih =>
      obtain ⟨v, t⟩ := e
      obtain ⟨hlt, hes⟩ := List.pairwise_cons.mp hes
      have hnone : Entries.lookup v es = none := Entries.lookup_eq_none_of_lt hlt
      obtain ⟨c, hc, hget⟩ := assign?_of_agree (b := b) (v := v) (t := t) fun u hu =>
        h v u t hu (by simp [Entries.lookup])
      obtain ⟨d, hd, hget'⟩ := ih hes (b := c) fun w x u hx hu => by
        have hne : v ≠ w := by
          rintro rfl
          simp [hnone] at hu
        simp only [hget, hne, if_false, Option.or_none] at hx
        exact h w x u hx (by simp [Entries.lookup, hne, hu])
      refine ⟨d, by simp [hc, hd], fun w => ?_⟩
      by_cases hw : v = w
      · subst hw
        simp [hget', hget, hnone, Entries.lookup]
      · simp [hget', hget, hw, Entries.lookup]

theorem Bindings.agree_of_foldlM_assign? {es : Entries} {b c : Bindings}
    (h : es.foldlM (fun c e => c.assign? e.1 e.2) b = some c) {v : Atom} {t u : Term}
    (ht : b.get? v = some t) (hu : Entries.lookup v es = some u) : t = u := by
  induction es generalizing b with
  | nil => cases hu
  | cons e es ih =>
      obtain ⟨w, x⟩ := e
      obtain ⟨b', hb, h⟩ := Option.bind_eq_some_iff.mp h
      rw [Entries.lookup] at hu
      split at hu
      · next heq =>
          cases heq
          cases hu
          exact eq_of_assign? hb ht
      · exact ih h (get?_of_assign? hb ht) hu

theorem Bindings.Agree.exists_merge {a b : Bindings} (h : a.Agree b) :
    ∃ c, a.merge b = some c ∧ ∀ v, c.get? v = (a.get? v).or (b.get? v) :=
  foldlM_assign?_of_agree b.ascending h

theorem Bindings.Agree.of_merge {a b c : Bindings} (h : a.merge b = some c) : a.Agree b :=
  fun _ _ _ => agree_of_foldlM_assign? h

theorem Bindings.get?_merge {a b c : Bindings} (h : a.merge b = some c) (v : Atom) :
    c.get? v = (a.get? v).or (b.get? v) := by
  obtain ⟨c', hc, hget⟩ := (Agree.of_merge h).exists_merge
  cases h.symm.trans hc
  exact hget v

theorem Bindings.get?_union (a b : Bindings) (v : Atom) :
    (a.union b).get? v = (a.get? v).or (b.get? v) := by
  change _ = (Entries.lookup v a.entries).or (b.get? v)
  unfold union
  induction a.entries with
  | nil => rfl
  | cons e es ih =>
      rw [List.foldr_cons, get?_insert, Entries.lookup]
      split
      · rfl
      · exact ih

theorem Bindings.Agree.merge_eq {a b : Bindings} (h : a.Agree b) :
    a.merge b = some (a.union b) := by
  obtain ⟨c, hc, hget⟩ := h.exists_merge
  rw [hc, ext_get? fun v => (hget v).trans (get?_union a b v).symm]

theorem Bindings.merge_eq_none {a b : Bindings} (h : ¬ a.Agree b) : a.merge b = none :=
  Option.eq_none_iff_forall_ne_some.mpr fun _ hc => h (.of_merge hc)

theorem Bindings.eq_empty_of_isEmpty {b : Bindings} (h : b.isEmpty) : b = empty :=
  ext_entries (List.isEmpty_iff.mp h)

theorem Bindings.agree_iff_all {a b : Bindings} :
    a.Agree b ↔ b.entries.all fun e => (a.get? e.1).all (e.2 == ·) := by
  simp only [List.all_eq_true, Option.all_eq_true, beq_iff_eq]
  constructor
  · intro h e he u hu
    exact (h e.1 u e.2 hu (get?_eq_some_iff.mpr he)).symm
  · intro h v t u ht hu
    exact (h (v, u) (get?_eq_some_iff.mp hu) t ht).symm

/-- Equal and empty bindings need not be looked into. -/
theorem Bindings.unite_eq_merge (a b : Bindings) : a.unite b = a.merge b := by
  have hunion (h : a.Agree b) {c : Bindings} (hc : ∀ v, c.get? v = (a.get? v).or (b.get? v)) :
      some c = a.merge b := by
    rw [h.merge_eq, ext_get? fun v => (hc v).trans (get?_union a b v).symm]
  unfold unite
  split
  · next h =>
      rcases h with rfl | h
      · refine hunion (fun v t u ht hu => ?_) fun v => (Option.or_self).symm
        exact Option.some.inj (ht.symm.trans hu)
      · cases eq_empty_of_isEmpty h
        exact hunion (fun _ _ _ _ hu => nomatch hu) fun v => Option.or_none.symm
  · split
    · next h =>
        cases eq_empty_of_isEmpty h
        exact hunion (fun _ _ _ ht _ => nomatch ht) fun v => rfl
    · split
      · next h => exact (agree_iff_all.mpr h).merge_eq.symm
      · next h => exact (merge_eq_none fun hab => h (agree_iff_all.mp hab)).symm

/-! ## Matches -/

namespace Pattern

theorem match?_lit_eq_some_iff {a : Atom} {t : Term} {b : Bindings} :
    (lit a).match? t = some b ↔ t = .atom a ∧ b = .empty := by
  cases t with
  | atom a' =>
      rw [match?]
      split
      · next h => simp [h, eq_comm]
      · next h => simp [Ne.symm h]
  | seq ts => simp [match?]

theorem match?_seq_eq_some_iff {ps : List Pattern} {t : Term} {b : Bindings} :
    (seq ps).match? t = some b ↔ ∃ ts, t = .seq ts ∧ matchAll? .empty ps ts = some b := by
  cases t with
  | atom a => simp [match?]
  | seq ts => simp [match?]

theorem matchAll?_nil_eq_some_iff {ts : List Term} {acc b : Bindings} :
    matchAll? acc [] ts = some b ↔ ts = [] ∧ acc = b := by
  cases ts <;> simp [matchAll?]

theorem matchAll?_cons_eq_some_iff {p : Pattern} {ps : List Pattern} {ts : List Term}
    {acc b : Bindings} :
    matchAll? acc (p :: ps) ts = some b ↔
      ∃ t ts' b' acc', ts = t :: ts' ∧ p.match? t = some b' ∧ acc.merge b' = some acc' ∧
        matchAll? acc' ps ts' = some b := by
  constructor
  · intro h
    cases ts with
    | nil => simp [matchAll?] at h
    | cons t ts =>
        rw [matchAll?] at h
        split at h
        · cases h
        · next b' hb =>
            split at h
            · cases h
            · next acc' hacc => exact ⟨t, ts, b', acc', rfl, hb, hacc, h⟩
  · rintro ⟨t, ts, b', acc', rfl, hb, hacc, h⟩
    simpa [matchAll?, hb, hacc] using h

mutual
/-- Variables are bound to parts of the matched term. -/
theorem subterm_of_match? {b : Bindings} {v : Atom} {u : Term} (hu : b.get? v = some u) :
    (p : Pattern) → (t : Term) → p.match? t = some b → Term.Subterm u t
  | .lit a, t, h => by
      obtain ⟨rfl, rfl⟩ := match?_lit_eq_some_iff.mp h
      simp at hu
  | .var w, t, h => by
      rw [match?] at h
      cases h
      simp only [Bindings.single, Bindings.get?_insert, Bindings.get?_empty] at hu
      split at hu
      · cases hu
        exact .refl _
      · cases hu
  | .joker, _, h => by
      rw [match?] at h
      cases h
      simp at hu
  | .seq ps, t, h => by
      obtain ⟨ts, rfl, h⟩ := match?_seq_eq_some_iff.mp h
      rcases subterm_of_matchAll? hu ps ts .empty h with hacc | ⟨t, ht, hut⟩
      · simp at hacc
      · exact .element ht hut

theorem subterm_of_matchAll? {b : Bindings} {v : Atom} {u : Term} (hu : b.get? v = some u) :
    (ps : List Pattern) → (ts : List Term) → (acc : Bindings) → matchAll? acc ps ts = some b →
    acc.get? v = some u ∨ ∃ t ∈ ts, Term.Subterm u t
  | [], ts, acc, h => by
      obtain ⟨rfl, rfl⟩ := matchAll?_nil_eq_some_iff.mp h
      exact .inl hu
  | p :: ps, ts, acc, h => by
      obtain ⟨t, ts, b', acc', rfl, hb, hacc, h⟩ := matchAll?_cons_eq_some_iff.mp h
      rcases subterm_of_matchAll? hu ps ts acc' h with hacc' | ⟨t', ht', hut⟩
      · rw [Bindings.get?_merge hacc, Option.or_eq_some_iff] at hacc'
        rcases hacc' with ha | ⟨-, hb'⟩
        · exact .inl ha
        · exact .inr ⟨t, by simp, subterm_of_match? hb' p t hb⟩
      · exact .inr ⟨t', by simp [ht'], hut⟩
end

mutual
/-- What stands for itself in the pattern occurs in the matched term. -/
theorem literal_mem_atoms {a : Atom} {b : Bindings} :
    (p : Pattern) → (t : Term) → p.match? t = some b → a ∈ p.literals → a ∈ t.atoms
  | .lit c, t, h, ha => by
      obtain ⟨rfl, rfl⟩ := match?_lit_eq_some_iff.mp h
      simpa [literals, Term.atoms] using ha
  | .var _, _, _, ha => by simp [literals] at ha
  | .joker, _, _, ha => by simp [literals] at ha
  | .seq ps, t, h, ha => by
      obtain ⟨ts, rfl, h⟩ := match?_seq_eq_some_iff.mp h
      exact literal_mem_atomsAll ps ts .empty h ha

theorem literal_mem_atomsAll {a : Atom} {b : Bindings} :
    (ps : List Pattern) → (ts : List Term) → (acc : Bindings) → matchAll? acc ps ts = some b →
    a ∈ literalsAll ps → a ∈ Term.atomsAll ts
  | [], _, _, _, ha => by simp [literalsAll] at ha
  | p :: ps, ts, acc, h, ha => by
      obtain ⟨t, ts, b', acc', rfl, hb, -, h⟩ := matchAll?_cons_eq_some_iff.mp h
      rw [literalsAll, List.mem_append] at ha
      rw [Term.atomsAll, List.mem_append]
      exact ha.imp (literal_mem_atoms p t hb) (literal_mem_atomsAll ps ts acc' h)
end

end Pattern

end ScopedRewriting
