import ScopedRewriting.Pattern.Instance
import ScopedRewriting.Proofs.Matching

/-!
# Matches are instances

A match is found exactly if the term is an instance of the pattern, and then it consists of the only
bindings of the pattern's variables under which it is one (`match_iff_instance`). The merging of
bindings may look for equal and empty ones first.
-/

namespace ScopedRewriting

/-! ## Bindings within others -/

/-- Whatever the first bind, the second bind to the same term. -/
def Bindings.Within (b c : Bindings) : Prop :=
  ∀ v t, b.get? v = some t → c.get? v = some t

namespace Bindings.Within

theorem empty (c : Bindings) : Bindings.empty.Within c :=
  fun _ _ h => nomatch h

theorem single_iff {v : Atom} {t : Term} {c : Bindings} :
    (Bindings.single v t).Within c ↔ c.get? v = some t := by
  constructor
  · intro h
    exact h v t (by simp [Bindings.single])
  · intro h w u hu
    simp only [Bindings.single, Bindings.get?_insert, Bindings.get?_empty] at hu
    split at hu
    · next heq =>
        cases heq
        exact h.trans hu
    · cases hu

theorem agree {a b c : Bindings} (ha : a.Within c) (hb : b.Within c) : a.Agree b :=
  fun v t u ht hu => Option.some.inj ((ha v t ht).symm.trans (hb v u hu))

/-- Bindings are equal to those they are within if these bind no further variables. -/
theorem eq_of_bound {b c : Bindings} (h : b.Within c)
    (hv : ∀ v, (c.get? v).isSome → (b.get? v).isSome) : b = c := by
  refine ext_get? fun v => ?_
  cases hb : b.get? v with
  | some t => exact (h v t hb).symm
  | none =>
      cases hc : c.get? v with
      | none => rfl
      | some u => simpa [hb, hc] using hv v

end Bindings.Within

/-- Merged bindings are the least that both are within. -/
theorem Bindings.merge_within_iff {a b c d : Bindings} (h : a.merge b = some c) :
    c.Within d ↔ a.Within d ∧ b.Within d := by
  have hget := get?_merge h
  constructor
  · intro hc
    refine ⟨fun v t ht => hc v t ?_, fun v t ht => hc v t ?_⟩
    · simp [hget, ht]
    · rw [hget]
      cases hu : a.get? v with
      | none => exact ht
      | some u => rw [Agree.of_merge h v u t hu ht, Option.some_or]
  · rintro ⟨ha, hb⟩ v t ht
    rw [hget, Option.or_eq_some_iff] at ht
    exact ht.elim (ha v t) fun ht => hb v t ht.2

namespace Pattern

mutual
theorem Instance.mono {b c : Bindings} (hbc : b.Within c) {p : Pattern} {t : Term} :
    Instance b p t → Instance c p t
  | .lit a => .lit a
  | .var h => .var (hbc _ _ h)
  | .joker t => .joker t
  | .seq h => .seq (h.mono hbc)

theorem Instances.mono {b c : Bindings} (hbc : b.Within c) {ps : List Pattern} {ts : List Term} :
    Instances b ps ts → Instances c ps ts
  | .nil => .nil
  | .cons h hs => .cons (h.mono hbc) (hs.mono hbc)
end

theorem Instance.eq_atom {a : Atom} {b : Bindings} {t : Term} :
    Instance b (.lit a) t → t = .atom a
  | .lit _ => rfl

/-! ## Found matches -/

mutual
/-- The term is an instance under the bindings that are found. -/
theorem instance_of_match? {b : Bindings} :
    (p : Pattern) → (t : Term) → p.match? t = some b → Instance b p t
  | .lit a, t, h => by
      obtain ⟨rfl, -⟩ := match?_lit_eq_some_iff.mp h
      exact .lit a
  | .var v, t, h => by
      rw [match?] at h
      cases h
      exact .var (by simp [Bindings.single])
  | .joker, t, _ => .joker t
  | .seq ps, t, h => by
      obtain ⟨ts, rfl, h⟩ := match?_seq_eq_some_iff.mp h
      exact .seq (instances_of_matchAll? ps ts .empty h).2

theorem instances_of_matchAll? {b : Bindings} :
    (ps : List Pattern) → (ts : List Term) → (acc : Bindings) → matchAll? acc ps ts = some b →
    acc.Within b ∧ Instances b ps ts
  | [], ts, acc, h => by
      obtain ⟨rfl, rfl⟩ := matchAll?_nil_eq_some_iff.mp h
      exact ⟨fun _ _ => id, .nil⟩
  | p :: ps, ts, acc, h => by
      obtain ⟨t, ts, b', acc', rfl, hb, hacc, h⟩ := matchAll?_cons_eq_some_iff.mp h
      obtain ⟨hw, hs⟩ := instances_of_matchAll? ps ts acc' h
      -- what the rest adds keeps the element an instance
      obtain ⟨haw, hbw⟩ := (Bindings.merge_within_iff hacc).mp hw
      exact ⟨haw, .cons ((instance_of_match? p t hb).mono hbw) hs⟩
end

theorem match?_eq_none {p : Pattern} {t : Term} (h : ∀ b, ¬ p.Instance b t) :
    p.match? t = none := by
  cases hb : p.match? t with
  | none => rfl
  | some b => exact absurd (instance_of_match? p t hb) (h b)

mutual
/-- Matches bind the variables of the pattern. -/
theorem boundBy_of_match? {b : Bindings} :
    (p : Pattern) → (t : Term) → p.match? t = some b → p.BoundBy b
  | .lit _, t, h => by
      obtain ⟨-, rfl⟩ := match?_lit_eq_some_iff.mp h
      simp [BoundBy, vars]
  | .var v, t, h => by
      rw [match?] at h
      cases h
      intro w
      by_cases hw : v = w <;> simp [Bindings.single, vars, hw, eq_comm]
  | .joker, _, h => by
      rw [match?] at h
      cases h
      simp [BoundBy, vars]
  | .seq ps, t, h => by
      obtain ⟨ts, rfl, h⟩ := match?_seq_eq_some_iff.mp h
      intro v
      simp [isSome_get?_of_matchAll? ps ts .empty h, vars]

theorem isSome_get?_of_matchAll? {b : Bindings} :
    (ps : List Pattern) → (ts : List Term) → (acc : Bindings) → matchAll? acc ps ts = some b →
    ∀ v, (b.get? v).isSome ↔ (acc.get? v).isSome ∨ v ∈ varsAll ps
  | [], ts, acc, h => by
      obtain ⟨rfl, rfl⟩ := matchAll?_nil_eq_some_iff.mp h
      simp [varsAll]
  | p :: ps, ts, acc, h => by
      obtain ⟨t, ts, b', acc', rfl, hb, hacc, h⟩ := matchAll?_cons_eq_some_iff.mp h
      intro v
      rw [isSome_get?_of_matchAll? ps ts acc' h, Bindings.get?_merge hacc, Option.isSome_or,
        Bool.or_eq_true, boundBy_of_match? p t hb, varsAll, List.mem_append, or_assoc]
end

/-! ## Instances are matched -/

mutual
/-- A match is found within any bindings under which the term is an instance. -/
theorem Instance.exists_match? {c : Bindings} {p : Pattern} {t : Term} :
    Instance c p t → ∃ b, p.match? t = some b ∧ b.Within c
  | .lit a => ⟨.empty, match?_lit_eq_some_iff.mpr ⟨rfl, rfl⟩, .empty c⟩
  | .var h => ⟨_, by rw [match?], Bindings.Within.single_iff.mpr h⟩
  | .joker t => ⟨.empty, by rw [match?], .empty c⟩
  | .seq h => by
      rw [match?]
      exact h.exists_matchAll? (.empty c)

theorem Instances.exists_matchAll? {c acc : Bindings} (hacc : acc.Within c) {ps : List Pattern}
    {ts : List Term} : Instances c ps ts → ∃ b, matchAll? acc ps ts = some b ∧ b.Within c
  | .nil => ⟨acc, by rw [matchAll?], hacc⟩
  | .cons h hs => by
      obtain ⟨b, hb, hbc⟩ := h.exists_match?
      obtain ⟨acc', hacc', -⟩ := (hacc.agree hbc).exists_merge
      have hwithin := (Bindings.merge_within_iff hacc').mpr ⟨hacc, hbc⟩
      simpa only [matchAll?, hb, hacc'] using hs.exists_matchAll? hwithin
end

/-- A term is an instance of a pattern under one choice of bindings of its variables only. -/
theorem Instance.eq {b c : Bindings} {p : Pattern} {t : Term} (hb : Instance b p t)
    (hbv : p.BoundBy b) (hc : Instance c p t) (hcv : p.BoundBy c) : b = c := by
  obtain ⟨d, hd, hdc⟩ := hc.exists_match?
  obtain ⟨d', hd', hdb⟩ := hb.exists_match?
  cases hd.symm.trans hd'
  have hdv := boundBy_of_match? p t hd
  rw [← hdb.eq_of_bound fun v hv => (hdv v).mpr ((hbv v).mp hv),
    ← hdc.eq_of_bound fun v hv => (hdv v).mpr ((hcv v).mp hv)]

theorem match?_eq_some_iff {p : Pattern} {t : Term} {b : Bindings} :
    p.match? t = some b ↔ p.BoundBy b ∧ p.Instance b t := by
  constructor
  · exact fun h => ⟨boundBy_of_match? p t h, instance_of_match? p t h⟩
  · rintro ⟨hbv, hb⟩
    obtain ⟨d, hd, -⟩ := hb.exists_match?
    rw [hd, (instance_of_match? p t hd).eq (boundBy_of_match? p t hd) hb hbv]

end Pattern

/-! ## Matching finds the instances -/

/-- The bindings that are found are those that bind the pattern's variables and make the term an
instance. There is at most one choice, nothing is found only if there is none, and all other
bindings under which the term is an instance bind more. The bindings of the elements can be merged
with or without looking for equal and empty ones first. -/
theorem match_iff_instance (p : Pattern) (t : Term) :
    (∀ b, p.match? t = some b ↔ p.BoundBy b ∧ p.Instance b t) ∧
    (∀ b c, p.BoundBy b → p.Instance b t → p.BoundBy c → p.Instance c t → b = c) ∧
    (p.match? t = none ↔ ¬ ∃ b, p.BoundBy b ∧ p.Instance b t) ∧
    (∀ c, p.Instance c t → ∃ b, p.match? t = some b ∧ b.Within c) ∧
    ∀ a b : Bindings, a.unite b = a.merge b := by
  refine ⟨fun b => p.match?_eq_some_iff, fun b c hbv hb hcv hc => hb.eq hbv hc hcv, ?_,
    fun c hc => hc.exists_match?, Bindings.unite_eq_merge⟩
  simp only [Option.eq_none_iff_forall_ne_some, ne_eq, Pattern.match?_eq_some_iff, not_exists]

/-- The pattern `[eq [s 'x] ['_ 'x]]` -/
private def bothSame : Pattern :=
  .seq [.lit ⟨"eq"⟩, .seq [.lit ⟨"s"⟩, .var ⟨"x"⟩], .seq [.joker, .var ⟨"x"⟩]]

/-- The term `[eq [s A] [q t]]` -/
private def compared (t : Term) : Term :=
  .seq [.atom ⟨"eq"⟩, .seq [.atom ⟨"s"⟩, .atom ⟨"A"⟩], .seq [.atom ⟨"q"⟩, t]]

/-- `[eq [s A] [q A]]` is an instance where `x` is bound to `A`, whatever else is bound, and a match
binds nothing else. `[eq [s A] [q [f A]]]` is no instance. -/
theorem match_iff_instance_nonlinear :
    let b := Bindings.single ⟨"x"⟩ (.atom ⟨"A"⟩)
    let c := b.insert ⟨"y"⟩ (.atom ⟨"B"⟩)
    let other : Term := .seq [.atom ⟨"f"⟩, .atom ⟨"A"⟩]
    bothSame.BoundBy b ∧ bothSame.Instance c (compared (.atom ⟨"A"⟩)) ∧
    (∀ d, bothSame.BoundBy d → bothSame.Instance d (compared (.atom ⟨"A"⟩)) → d = b) ∧
    (∃ d, bothSame.match? (compared (.atom ⟨"A"⟩)) = some d ∧ d.Within c) ∧
    ¬ ∃ d, bothSame.BoundBy d ∧ bothSame.Instance d (compared other) := by
  intro b c other
  obtain ⟨hiff, hunique, -, hwithin, -⟩ := match_iff_instance bothSame (compared (.atom ⟨"A"⟩))
  obtain ⟨hbound, hb⟩ := (hiff b).mp (by decide +kernel)
  have hc : bothSame.Instance c (compared (.atom ⟨"A"⟩)) :=
    .seq (.cons (.lit _) (.cons (.seq (.cons (.lit _) (.cons (.var rfl) .nil)))
      (.cons (.seq (.cons (.joker _) (.cons (.var rfl) .nil))) .nil)))
  obtain ⟨-, -, hnone, -⟩ := match_iff_instance bothSame (compared other)
  exact ⟨hbound, hc, fun d hdbound hd => hunique d b hdbound hd hbound hb, hwithin c hc,
    hnone.mp (by decide +kernel)⟩

end ScopedRewriting
