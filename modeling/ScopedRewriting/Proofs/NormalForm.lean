import Mathlib.Order.Filter.AtTopBot.Basic
import ScopedRewriting.Proofs.Allowance
import ScopedRewriting.Proofs.Contract
import ScopedRewriting.Proofs.Steps

/-!
# Normal forms

The steps of the engine do what the relations beside them say (`Judgement.reduceOnce`,
`forgetful_reduceOnce`). So the normal form of a term is characterized without any allowance of
steps (`normalForm_iff`), and what is kept by one round of steps holds of all normal forms
(`NormalForm.induct`).
-/

namespace ScopedRewriting

open Filter

variable {π : Policy} {N : Normalization} {s : Scope}

/-! ## What the steps yield -/

namespace Judgement

variable (J : Judgement)

/-- A directive in the place of a pattern may be reported. -/
def Warns (t : Term) : Prop :=
  ∀ d, t.directive? = some d → Pattern.ofTerm? d.pattern = none →
    J.Holds (fun _ => True) (ScopedRewriting.note (.directiveInPattern d.pattern))

variable {J}

theorem mapM {norm : Term → Job Term} {R : Term → Term → Prop} {ts : List Term}
    (h : ∀ t ∈ ts, J.Holds (R t) (norm t)) : J.Holds (List.Forall₂ R ts) (ts.mapM norm) := by
  induction ts with
  | nil => exact J.pure .nil
  | cons t ts ih =>
      obtain ⟨ht, hts⟩ := List.forall_mem_cons.mp h
      rw [List.mapM_cons]
      exact J.bind ht fun u hu => J.bind (ih hts) fun us hus => J.pure (.cons hu hus)

theorem normalizeElements {norm : Term → Job Term} {t : Term}
    (h : ∀ ts, t = .seq ts → ∀ u ∈ ts, J.Holds (N s u) (norm u)) :
    J.Holds (Elementwise N s t) (normalizeElements norm t) := by
  cases t with
  | atom a => exact J.pure (.atom a)
  | seq ts => exact J.bind (mapM (h ts rfl)) fun us hus => J.pure (.seq hus)

theorem create (t : Term) : J.Holds (· = Pattern.ofTerm? t) (Pattern.create t) :=
  J.bind (J.internAll _) fun _ _ => J.pure rfl

variable {norm : Normalizer Job} {t : Term}

theorem apply {r : Rule} (h : ∀ s' u, r.Needs π N s t s' u → J.Holds (N s' u) (norm s' u))
    (hw : r = .declaration → J.Warns t) : J.Holds (Applies π N s t r) (r.apply π norm s t) := by
  cases r with
  | empty => exact J.pure .empty
  | declaration =>
      simp only [Rule.apply]
      cases hd : t.directive? with
      | none => exact J.pure (.undirected hd)
      | some d =>
          refine J.bind (create d.pattern) fun p? hp => ?_
          cases p? with
          | none => exact J.bind (hw rfl d hd hp.symm) fun _ _ => J.pure (.refuse hd hp.symm)
          | some p =>
              refine J.bind (J.note _ (by simp [Event.level])) fun _ _ => ?_
              exact J.bind (h _ _ (.declare hd hp.symm)) fun u hu =>
                J.pure (.declare hd hp.symm hu)
  | subst a u =>
      simp only [Rule.apply]
      split
      · next ht => exact J.pure (.replace ht)
      · next ht => exact J.pure (.keep ht)
  | function p body c =>
      simp only [Rule.apply]
      cases hm : p.match? t with
      | none => exact J.pure (.mismatch hm)
      | some b =>
          refine J.bind (J.note _ (by simp [Event.level])) fun _ _ => ?_
          exact J.bind (h _ _ (.body hm)) fun u hu =>
            J.bind (h _ _ (.result hm hu)) fun v hv => J.pure (.fire hm hu hv)

theorem applyFirst {rs : List Rule}
    (h : ∀ r ∈ rs, ∀ s' u, r.Needs π N s t s' u → J.Holds (N s' u) (norm s' u))
    (hw : Rule.declaration ∈ rs → J.Warns t) :
    J.Holds (AppliesFirst π N s t rs) (applyFirst π norm s t rs) := by
  induction rs with
  | nil => exact J.pure .nil
  | cons r rs ih =>
      have hr : J.Holds (Applies π N s t r) (r.apply π norm s t) :=
        apply (h r (by simp)) fun hr => hw (by simp [hr])
      refine J.bind hr fun u? hu => ?_
      cases u? with
      | none =>
          exact J.imp (ih (fun q hq => h q (by simp [hq])) fun hm => hw (by simp [hm]))
            fun v? hv => .there hu hv
      | some u => exact J.pure (.here hu)

theorem reduceOnce (h : ∀ s' u, Needs π N s t s' u → J.Holds (N s' u) (norm s' u))
    (hw : ∀ t', Elementwise N s t t' → Rule.declaration ∈ s.rules → J.Warns t') :
    J.Holds (Reduces π N s t) (reduceOnce π norm s t) := by
  have helements : ∀ ts, t = .seq ts → ∀ u ∈ ts, J.Holds (N s u) (norm s u) := by
    rintro ts rfl u hu
    exact h s u (.element hu)
  refine J.bind (normalizeElements helements) fun t' ht => ?_
  refine J.map (applyFirst (fun r hr s' u hn => h s' u (.rule ht hr hn)) (hw t' ht)) fun u? hu => ?_
  cases u? with
  | none => exact .keep ht hu
  | some u => exact .apply ht hu

theorem settle {step : Term → Job Term} {R : Term → Term → Prop} {G : Term → Prop}
    (h : ∀ t, G t → J.Holds (R t) (step t)) (hG : ∀ t u, G t → R t u → G u) (n : Nat) (ht : G t) :
    J.Holds (Settles R t) (settle step n t) := by
  induction n generalizing t with
  | zero => exact J.exhausted
  | succ n ih =>
      refine J.bind (J.note _ (by simp [Event.level])) fun _ _ => J.bind (h t ht) fun u hu => ?_
      split
      · next heq => exact J.pure (.stop (heq ▸ hu))
      · next hne => exact J.imp (ih (hG t u ht hu)) fun v hv => .go hu hne hv

/-- What holds of a round of steps, given that it holds of what the steps need, holds of each
allowance of steps. -/
theorem normalize_of_round {G : Scope → Term → Prop} (hG : Invariant π N G)
    (hw : ∀ s t t', G s t → Elementwise N s t t' → Rule.declaration ∈ s.rules → J.Warns t')
    (hround : ∀ n s t, G s t →
      J.Holds (Settles (Reduces π N s) t)
        (ScopedRewriting.settle (ScopedRewriting.reduceOnce π (normalize π n) s) n t) →
      J.Holds (N s t) (normalize π (n + 1) s t))
    (fuel : Nat) (ht : G s t) : J.Holds (N s t) (normalize π fuel s t) := by
  induction fuel generalizing s t with
  | zero => exact J.exhausted
  | succ n ih =>
      have hstep : ∀ t, G s t →
          J.Holds (Reduces π N s t) (ScopedRewriting.reduceOnce π (normalize π n) s t) := by
        intro t ht
        exact reduceOnce (fun s' u hn => ih (hG.needs ht hn)) fun t' => hw s t t' ht
      exact hround n s t ht (settle hstep (fun _ _ => hG.reduces) n ht)

end Judgement

/-! ## What the steps yield for an engine that remembers nothing

The normal forms of `N` are found by all engines of a family `norm`, from some member on. So are
the results of the steps then.
-/

section

variable {ι : Type} {l : Filter ι} {norm : ι → Normalizer Job}

theorem forgetful_mapM {norm : ι → Term → Job Term} {R : Term → Term → Prop}
    (h : ∀ t u, R t u → ∀ᶠ i in l, (norm i t).forgetful = some u) {ts us : List Term}
    (hts : List.Forall₂ R ts us) : ∀ᶠ i in l, (ts.mapM (norm i)).forgetful = some us := by
  induction hts with
  | nil => exact .of_forall fun i => rfl
  | cons ht _ ih =>
      filter_upwards [h _ _ ht, ih] with i hi his
      simp [List.mapM_cons, Job.forgetful_bind, hi, his]

variable (h : ∀ s t u, N s t u → ∀ᶠ i in l, (norm i s t).forgetful = some u) {t : Term}

include h

theorem forgetful_normalizeElements {u : Term} (ht : Elementwise N s t u) :
    ∀ᶠ i in l, (normalizeElements (norm i s) t).forgetful = some u := by
  cases ht with
  | atom a => exact .of_forall fun i => rfl
  | seq hts =>
      filter_upwards [forgetful_mapM (h s) hts] with i hi
      simp [normalizeElements, Job.forgetful_bind, hi]

theorem forgetful_apply {r : Rule} {u? : Option Term} (hr : Applies π N s t r u?) :
    ∀ᶠ i in l, (r.apply π (norm i) s t).forgetful = some u? := by
  cases hr with
  | empty => exact .of_forall fun i => rfl
  | undirected hd => exact .of_forall fun i => by simp [Rule.apply, hd]
  | refuse hd hp =>
      refine .of_forall fun i => ?_
      simp [Rule.apply, Pattern.create, Job.forgetful_bind, hd, hp]
  | declare hd hp hu =>
      filter_upwards [h _ _ _ hu] with i hi
      simp [Rule.apply, Pattern.create, Job.forgetful_bind, hd, hp, hi]
  | replace ht => exact .of_forall fun i => by simp [Rule.apply, ht]
  | keep ht => exact .of_forall fun i => by simp [Rule.apply, ht]
  | mismatch hm => exact .of_forall fun i => by simp [Rule.apply, hm]
  | fire hm hu hv =>
      filter_upwards [h _ _ _ hu, h _ _ _ hv] with i hi hi'
      simp [Rule.apply, Job.forgetful_bind, hm, hi, hi']

theorem forgetful_applyFirst {rs : List Rule} {u? : Option Term}
    (hrs : AppliesFirst π N s t rs u?) :
    ∀ᶠ i in l, (applyFirst π (norm i) s t rs).forgetful = some u? := by
  induction hrs with
  | nil => exact .of_forall fun i => rfl
  | here hr =>
      filter_upwards [forgetful_apply h hr] with i hi
      simp [applyFirst, Job.forgetful_bind, hi]
  | there hr _ ih =>
      filter_upwards [forgetful_apply h hr, ih] with i hi hi'
      simp [applyFirst, Job.forgetful_bind, hi, hi']

theorem forgetful_reduceOnce {u : Term} (ht : Reduces π N s t u) :
    ∀ᶠ i in l, (reduceOnce π (norm i) s t).forgetful = some u := by
  cases ht with
  | apply he hr =>
      filter_upwards [forgetful_normalizeElements h he, forgetful_applyFirst h hr] with i hi hi'
      simp [reduceOnce, Job.forgetful_bind, hi, hi']
  | keep he hr =>
      filter_upwards [forgetful_normalizeElements h he, forgetful_applyFirst h hr] with i hi hi'
      simp [reduceOnce, Job.forgetful_bind, hi, hi']

end

theorem forgetful_settle {ι : Type} {l : Filter ι} {step : ι → Term → Job Term}
    {R : Term → Term → Prop} (h : ∀ t u, R t u → ∀ᶠ i in l, (step i t).forgetful = some u)
    {t u : Term} (ht : Settles R t u) :
    ∃ k, ∀ᶠ i in l, ∀ n, k ≤ n → (settle (step i) n t).forgetful = some u := by
  induction ht with
  | stop hr =>
      refine ⟨1, ?_⟩
      filter_upwards [h _ _ hr] with i hi n hn
      obtain ⟨n, rfl⟩ := Nat.exists_eq_add_of_le' hn
      simp [settle, Job.forgetful_bind, hi]
  | go hr hne _ ih =>
      obtain ⟨k, hk⟩ := ih
      refine ⟨k + 1, ?_⟩
      filter_upwards [h _ _ hr, hk] with i hi his n hn
      obtain ⟨n, rfl⟩ := Nat.exists_eq_add_of_le' (Nat.le_of_add_left_le hn)
      simp [settle, Job.forgetful_bind, hi, hne, his n (by omega)]

/-! ## The allowance of steps -/

/-- What holds of the result for an engine that remembers nothing. -/
def forgetfully : Judgement where
  Holds P j := ∀ a, j.forgetful = some a → P a
  pure h a ha := by
    cases ha
    exact h
  bind hj hf b hb := by
    obtain ⟨a, ha, hb⟩ := Job.forgetful_bind_eq_some_iff.mp hb
    exact hf a (hj a ha) b hb
  exhausted _ ha := by cases ha
  intern _ _ _ := trivial
  note _ _ _ _ := trivial

/-- In the scope `s`, the term `t` has the normal form `u`, found by nesting at most `fuel` deep. -/
def NormalFormWithin (π : Policy) (fuel : Nat) : Normalization := fun s t u =>
  Job.forgetful (normalize π fuel s t) = some u

variable {n m : Nat} {t u v : Term}

theorem normalize_succ (π : Policy) (n : Nat) (s : Scope) (t : Term) :
    normalize π (n + 1) s t = Job.ask (.recall s t) fun (known? : Option Term) =>
      match known? with
      | some normal => .ask (.note (.known t)) fun _ => .done normal
      | none => settle (reduceOnce π (normalize π n) s) n t >>= fun normal =>
          .ask (.memorize s t normal) fun _ => .done normal := by
  refine congrArg (Job.ask _) (funext fun known? => ?_)
  cases known? <;> rfl

theorem forgetful_normalize_succ : Job.forgetful (normalize π (n + 1) s t) =
    Job.forgetful (settle (reduceOnce π (normalize π n) s) n t) := by
  rw [normalize_succ]
  exact (Job.forgetful_bind (settle (reduceOnce π (normalize π n) s) n t) _).trans
    (Option.bind_fun_some _)

theorem normalFormWithin_succ_iff : NormalFormWithin π (n + 1) s t u ↔
    Job.forgetful (settle (reduceOnce π (normalize π n) s) n t) = some u := by
  rw [NormalFormWithin, forgetful_normalize_succ]

theorem reduces_of_forgetful (h : Job.forgetful (reduceOnce π (normalize π n) s t) = some u) :
    Reduces π (NormalFormWithin π n) s t u :=
  Judgement.reduceOnce (J := forgetfully) (fun _ _ _ _ hu => hu)
    (fun _ _ _ _ _ _ _ _ => trivial) u h

theorem NormalFormWithin.settles (h : NormalFormWithin π (n + 1) s t u) :
    Settles (Reduces π (NormalFormWithin π n) s) t u :=
  Judgement.settle (J := forgetfully) (R := Reduces π (NormalFormWithin π n) s) (G := fun _ => True)
    (fun _ _ _ hu => reduces_of_forgetful hu) (fun _ _ _ _ => trivial) n trivial u
    (normalFormWithin_succ_iff.mp h)

theorem NormalFormWithin.mono (hn : n ≤ m) (h : NormalFormWithin π n s t u) :
    NormalFormWithin π m s t u :=
  (Job.approximation.normalize hn s t).forgetful_eq h

theorem NormalForm.eventually (h : NormalForm π s t u) :
    ∀ᶠ n in atTop, NormalFormWithin π n s t u := by
  obtain ⟨n, hn⟩ := h
  exact eventually_atTop.mpr ⟨n, fun m hm => NormalFormWithin.mono hm hn⟩

/-! ## Normal forms without an allowance of steps -/

/-- A term has the normal form at which the steps settle, elements and the results of rules having
their normal forms in turn. -/
theorem normalForm_iff :
    NormalForm π s t u ↔ Settles (Reduces π (NormalForm π) s) t u := by
  constructor
  · rintro ⟨n, hn⟩
    cases n with
    | zero => cases hn
    | succ n =>
        have hn : NormalFormWithin π (n + 1) s t u := hn
        refine hn.settles.mono fun t u => Reduces.mono fun s t u hu => ?_
        exact ⟨n, hu⟩
  · intro h
    obtain ⟨k, hk⟩ := forgetful_settle (R := Reduces π (NormalForm π) s)
      (fun _ _ ht => forgetful_reduceOnce (fun _ _ _ hu => hu.eventually) ht) h
    obtain ⟨n, hn, hkn⟩ := (hk.and (eventually_ge_atTop k)).exists
    exact ⟨n + 1, normalFormWithin_succ_iff.mpr (hn n hkn)⟩

/-- What is kept by a round of steps holds of all normal forms. -/
theorem NormalForm.induct {P : Normalization}
    (settled : ∀ s t u, Settles (Reduces π (fun s t u => NormalForm π s t u ∧ P s t u) s) t u →
      P s t u) (h : NormalForm π s t u) : P s t u := by
  obtain ⟨n, hn⟩ := h
  induction n generalizing s t u with
  | zero => cases hn
  | succ n ih =>
      have hn : NormalFormWithin π (n + 1) s t u := hn
      refine settled s t u (hn.settles.mono fun t u => Reduces.mono fun s t u hu => ?_)
      exact ⟨⟨n, hu⟩, ih hu⟩

theorem NormalForm.unique (hu : NormalForm π s t u) (hv : NormalForm π s t v) : u = v := by
  obtain ⟨n, hn, hm⟩ := (hu.eventually.and hv.eventually).exists
  exact Option.some.inj (hn.symm.trans hm)

theorem NormalForm.reduces (h : NormalForm π s t u) : Reduces π (NormalForm π) s u u :=
  (normalForm_iff.mp h).fixed

theorem NormalForm.of_reduces (h : Reduces π (NormalForm π) s t u) (hu : NormalForm π s u v) :
    NormalForm π s t v :=
  normalForm_iff.mpr ((normalForm_iff.mp hu).head h)

theorem NormalForm.self (h : NormalForm π s t u) : NormalForm π s u u :=
  normalForm_iff.mpr (.stop h.reduces)

theorem NormalForm.again_iff (h : NormalForm π s t u) :
    NormalForm π s u v ↔ NormalForm π s t v := by
  constructor
  · intro hv
    exact h.self.unique hv ▸ h
  · intro hv
    exact h.unique hv ▸ h.self

end ScopedRewriting
