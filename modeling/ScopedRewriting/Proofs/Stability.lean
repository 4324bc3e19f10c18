import ScopedRewriting.Proofs.Allowance
import ScopedRewriting.Proofs.Memory

/-!
# Stable normal forms

What a term has come to does not change anymore, whatever the engine does in the meantime and
whether it remembers the term or not (`normal_forms_stable`).
-/

namespace ScopedRewriting

variable {π : Policy} {engine later : Engine} {s : Scope} {t u : Term}

/-! ## Fixed terms -/

/-- What some term comes to are the terms that a step does not change. -/
theorem exists_normalForm_iff : (∃ t, NormalForm π s t u) ↔ Reduces π (NormalForm π) s u u := by
  constructor
  · rintro ⟨t, ht⟩
    exact ht.reduces
  · intro hu
    exact ⟨u, normalForm_iff.mpr (.stop hu)⟩

/-! ## Later engines -/

/-- The second engine is the first one after it has answered calls, shared forms and been emptied,
in any order. -/
inductive Engine.Leads (π : Policy) (engine : Engine) : Engine → Prop
  | refl : Leads π engine engine
  | call {later : Engine} (fuel : Nat) (c : Call) :
      Leads π engine later → Leads π engine ((c.job π fuel).run later).2
  | share {later : Engine} (f : Form) :
      Leads π engine later → Leads π engine ((f.share : Job Term).run later).2
  | clear {later : Engine} : Leads π engine later → Leads π engine { later with cache := .empty }

theorem Engine.Filled.of_leads (h : engine.Filled π) (hlater : engine.Leads π later) :
    later.Filled π := by
  induction hlater with
  | refl => exact h
  | call fuel c _ ih => exact ih.call fuel c
  | share f _ ih => exact ih.share f
  | clear _ ih => exact ih.clear

theorem Engine.Filled.answers_iff_eq (h : engine.Filled π) {c : Call} {a b : c.Answer}
    (ha : c.Result π a) : engine.Answers π c b ↔ b = a := by
  rw [h.answers_iff]
  constructor
  · intro hb
    exact hb.unique ha
  · rintro rfl
    exact ha

/-! ## Normal forms are kept -/

/-- If an engine brings `t` to `u`, then from that time on it brings `u` to `u`, and a step keeps
`u`. Calls in any scopes may come between, and the cache may be emptied. -/
theorem normal_forms_stable (h : engine.Filled π) {fuel : Nat}
    (hu : (((Call.normalize s t).job π fuel).run engine).1 = some u)
    (hlater : Engine.Leads π (((Call.normalize s t).job π fuel).run engine).2 later) :
    (∀ v, later.Answers π (.normalize s u) v ↔ v = u) ∧
    ∀ v, later.Answers π (.reduceOnce s u) v ↔ v = u := by
  have ht : NormalForm π s t u := h.normalizes_iff.mp ⟨fuel, hu⟩
  have hfilled : later.Filled π := (h.call fuel (.normalize s t)).of_leads hlater
  have hself : (Call.normalize s u).Result π u := ht.self
  have hfixed : (Call.reduceOnce s u).Result π u :=
    result_iff_means.mpr (exists_normalForm_iff.mp ⟨t, ht⟩)
  exact ⟨fun v => hfilled.answers_iff_eq hself, fun v => hfilled.answers_iff_eq hfixed⟩

/-- `[A -> B [f A]]` is brought to normal form. -/
private def declaringCall : Call :=
  .normalize (.base .standard)
    (Term.Directive.toTerm ⟨.atom ⟨"A"⟩, .atom ⟨"B"⟩, .seq [.atom ⟨"f"⟩, .atom ⟨"A"⟩]⟩)

/-- `[f t]` is brought to normal form. -/
private def plainCall (t : Term) : Call :=
  .normalize (.base .standard) (.seq [.atom ⟨"f"⟩, t])

private def remembering : Engine :=
  ((declaringCall.job .standard 6).run {}).2

/-- The engine has answered the same call again, was emptied and has answered another call. -/
private def emptied : Engine :=
  let reminded := ((declaringCall.job .standard 6).run remembering).2
  (((plainCall (.atom ⟨"A"⟩)).job .standard 6).run { reminded with cache := .empty }).2

/-- The normal form `[f B]` is recalled, and it stays when the engine has forgotten it and has found
that `[f A]` is a normal form in the same scope. -/
theorem normal_forms_stable_emptied :
    let fB : Term := .seq [.atom ⟨"f"⟩, .atom ⟨"B"⟩]
    remembering.Filled .standard ∧
    ((declaringCall.job .standard 6).run remembering).1 = some fB ∧
    Engine.Leads .standard ((declaringCall.job .standard 6).run remembering).2 emptied ∧
    emptied.Answers .standard (.normalize (.base .standard) fB) fB ∧
    emptied.Answers .standard (.reduceOnce (.base .standard) fB) fB := by
  intro fB
  have h : remembering.Filled .standard := .call 6 declaringCall .fresh
  have hjob : Job.forgetful (declaringCall.job .standard 6) = some fB := by
    change Job.forgetful (normalize _ _ _ _) = _
    decide +kernel
  have hrun : ((declaringCall.job .standard 6).run remembering).1 = some fB := h.run_eq hjob
  have hlater :
      Engine.Leads .standard ((declaringCall.job .standard 6).run remembering).2 emptied :=
    .call 6 (plainCall _) (.clear .refl)
  obtain ⟨hnormalize, hreduce⟩ := normal_forms_stable h hrun hlater
  exact ⟨h, hrun, hlater, (hnormalize fB).mpr rfl, (hreduce fB).mpr rfl⟩

end ScopedRewriting
