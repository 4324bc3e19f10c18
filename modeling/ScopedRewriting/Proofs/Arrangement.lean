import Mathlib.Combinatorics.Enumerative.DoubleCounting
import ScopedRewriting.Proofs.Equivariance
import ScopedRewriting.Proofs.Footprint

/-!
# The order of bindings

In which order the bindings of a match become rules is up to the policy, and so are the hashes of
links. The scopes of two runs under different policies differ for that reason, but they correspond
one to one (`Counterpart.unique`). So whatever is evaluated has the same normal form under both
policies, and as many normal forms are remembered (`policy_unobservable`).
-/

namespace ScopedRewriting

variable {π π' : Policy} {s s' s₁ s₂ : Scope}

/-! ## Scopes under two policies -/

theorem Bindings.rename_id (b : Bindings) : b.rename id = b := by
  have hid : Term.rename id = id := funext Term.rename_id
  refine (eq_rename Function.injective_id (fun v => ?_) fun w hw => absurd rfl (hw w)).symm
  rw [hid, Option.map_id_apply, id]

namespace Scope

/-- Hashes apart, a lexical scope is one under every policy. -/
theorem Lexical.rename (h : s.Lexical π) : (s.rename π' id).Lexical π' := by
  induction h with
  | base => exact .base
  | declare p body _ ih =>
      rw [rename_extend]
      simpa [Rule.rename] using ih.declare p body

/-- The hashes that the policy computes are found again. -/
theorem Lexical.rename_rename (h : s.Lexical π) : (s.rename π' id).rename π id = s := by
  induction h with
  | base => rfl
  | declare p body _ ih =>
      rw [rename_extend, rename_extend]
      simp [Rule.rename, ih]

theorem ofBindings_injective (π : Policy) : Function.Injective (ofBindings π) := by
  intro b b' h
  have hmem (v : Atom) (t : Term) : b.get? v = some t ↔ b'.get? v = some t := by
    have hrules (b : Bindings) : b.get? v = some t ↔ .subst v t ∈ (ofBindings π b).rules := by
      simp [Bindings.get?_eq_some_iff, mem_rules_ofBindings]
    rw [hrules, hrules, h]
  exact Bindings.ext_get? fun v => Option.ext fun t => hmem v t

theorem Lexical.ne_ofBindings (h : s.Lexical π) (b : Bindings) : s ≠ ofBindings π' b := by
  rintro rfl
  exact h.not_replacing π' (.intro b)

end Scope

/-- The same lexical scope under the other policy, or the scope of the same bindings. -/
inductive Counterpart (π π' : Policy) : Scope → Scope → Prop
  | lexical {s : Scope} : s.Lexical π → Counterpart π π' s (s.rename π' id)
  | bindings (b : Bindings) : Counterpart π π' (.ofBindings π b) (.ofBindings π' b)

theorem Counterpart.symm (h : Counterpart π π' s s') : Counterpart π' π s' s := by
  cases h with
  | lexical hs =>
      have hback : Counterpart π' π (s.rename π' id) ((s.rename π' id).rename π id) :=
        .lexical hs.rename
      rwa [hs.rename_rename] at hback
  | bindings b => exact .bindings b

theorem Counterpart.unique (h₁ : Counterpart π π' s s₁) (h₂ : Counterpart π π' s s₂) : s₁ = s₂ := by
  generalize hs : s = s' at h₂
  cases h₁ with
  | lexical hs₁ =>
      cases h₂ with
      | lexical _ => rw [hs]
      | bindings b => exact absurd hs (hs₁.ne_ofBindings b)
  | bindings b =>
      cases h₂ with
      | lexical hs₂ => exact absurd hs.symm (hs₂.ne_ofBindings b)
      | bindings b' => rw [Scope.ofBindings_injective π hs]

/-! ## Runs under two policies -/

theorem Rule.follow_of_lexical (t : Term) {rs : List Rule}
    (h : ∀ r ∈ rs, r = .declaration ∨ ∃ p body c, r = .function p body c ∧ c.Lexical π) :
    Rule.Follow id (fun _ => True) (fun s s' => s.Lexical π ∧ s' = s.rename π' id) t rs
      (rs.map (Rule.rename π' id)) := by
  induction rs with
  | nil => exact .nil
  | cons r rs ih =>
      obtain ⟨hr, hrs⟩ := List.forall_mem_cons.mp h
      refine .both ?_ fun _ => ih hrs
      rcases hr with rfl | ⟨p, body, c, rfl, hc⟩
      · exact .declaration
      · exact .function p body trivial ⟨hc, rfl⟩

def Simulation.rearranging (π π' : Policy) : Simulation π π' id fun _ => True where
  Alike s s' := s.Lexical π ∧ s' = s.rename π' id
  follow := by
    rintro s _ t ⟨hs, rfl⟩ _
    rw [Scope.rules_rename]
    exact Rule.follow_of_lexical t fun r hr => hs.mem_rules hr
  declare := by
    rintro s _ body p ⟨hs, rfl⟩ _
    exact ⟨hs.declare p body, (Scope.rename_extend (.function p body s)).symm⟩

theorem Simulation.Related.counterpart (h : (rearranging π π').Related s s') :
    Counterpart π π' s s' := by
  cases h with
  | alike hs =>
      obtain ⟨hs, rfl⟩ := hs
      exact .lexical hs
  | bindings _ =>
      rw [Bindings.rename_id]
      exact .bindings _

theorem normalForm_base_iff {t u : Term} :
    NormalForm π (.base π) t u ↔ NormalForm π' (.base π') t u := by
  have hbase : (Simulation.rearranging π π').Alike (.base π) (.base π') := ⟨.base, rfl⟩
  have hiff := (Simulation.rearranging π π').normalForm_rename_iff (w := u) Atom.renaming_id
    Term.hereditary_true hbase (t := t) trivial
  simpa using hiff.symm

/-! ## What is remembered under two policies -/

/-- What one run stores on its way to a normal form, the other one stores, renamed and for a related
scope. -/
theorem Simulation.exists_demands {f : Atom → Atom} {P : Term → Prop} (σ : Simulation π π' f P)
    (hf : Atom.Renaming f) (hP : Term.Hereditary P) {t : Term} (hs : σ.Alike s s') (ht : P t)
    {t₁ n₁ : Term} (h : (Call.normalize s t).Demands π (.memorize s₁ t₁ n₁)) :
    ∃ s₂, σ.Related s₁ s₂ ∧ (Call.normalize s' (t.rename f)).Demands π'
      (.memorize s₂ (t₁.rename f) (n₁.rename f)) := by
  obtain ⟨n, hsome, hq⟩ := h
  have hlockstep := σ.lockstep_normalize hf hP n (.alike hs) ⟨ht, rfl⟩
  obtain ⟨_, he, hstores⟩ := forall₂_mem_left hlockstep.2 (Job.mem_entries_iff.mpr hq)
  cases hstores with
  | intro hs₂ ht₂ hn₂ =>
      cases ht₂.2
      cases hn₂.2
      exact ⟨_, hs₂, n, hlockstep.isSome_eq ▸ hsome, Job.mem_entries_iff.mp he⟩

variable {engine engine' : Engine} {t : Term}

theorem Engine.LeftBy.entry_iff_demands (h : engine.LeftBy π [.evaluate t]) {t₁ n₁ : Term} :
    engine.cache.get? s t₁ = some n₁ ↔
      (Call.normalize (.base π) t).Demands π (.memorize s t₁ n₁) := by
  have hiff : engine.cache.get? s t₁ = some n₁ ↔
      (Call.evaluate t).Demands π (.memorize s t₁ n₁) := by
    simpa [Keeps] using h.keeps_iff (.memorize s t₁ n₁)
  exact hiff

/-- For each normal form that an evaluation leaves behind, the evaluation under the other policy
leaves one behind, for the counterpart of the scope. -/
theorem Engine.LeftBy.exists_counterpart (h : engine.LeftBy π [.evaluate t])
    (h' : engine'.LeftBy π' [.evaluate t]) {t₁ n₁ : Term}
    (hn : engine.cache.get? s t₁ = some n₁) :
    ∃ s', Counterpart π π' s s' ∧ engine'.cache.get? s' t₁ = some n₁ := by
  have hbase : (Simulation.rearranging π π').Alike (.base π) (.base π') := ⟨.base, rfl⟩
  obtain ⟨s', hs, hd⟩ := (Simulation.rearranging π π').exists_demands Atom.renaming_id
    Term.hereditary_true hbase trivial (h.entry_iff_demands.mp hn)
  rw [Term.rename_id, Term.rename_id, Term.rename_id] at hd
  exact ⟨s', hs.counterpart, h'.entry_iff_demands.mpr hd⟩

/-- If every entry of `c` is found in `d` under a related scope, and no two scopes are related to
the same one, there are no more entries in `c`. -/
theorem Cache.size_le_of_forall_exists {c d : Cache} {R : Scope → Scope → Prop}
    (hR : ∀ s₁ s₂ s', R s₁ s' → R s₂ s' → s₁ = s₂)
    (h : ∀ s t n, c.get? s t = some n → ∃ s', R s s' ∧ d.get? s' t = some n) :
    c.size ≤ d.size := by
  have hmem (c : Cache) (k : Scope × Term) :
      k ∈ c.table.keys.toFinset ↔ ∃ n, c.get? k.1 k.2 = some n := by
    rw [List.mem_toFinset, Std.HashMap.mem_keys, Std.HashMap.mem_iff_isSome_getElem?,
      Option.isSome_iff_exists]
    rfl
  have hcard (c : Cache) : c.table.keys.toFinset.card = c.size := by
    rw [List.toFinset_card_of_nodup Std.HashMap.nodup_keys, Std.HashMap.length_keys, size]
  rw [← hcard, ← hcard]
  refine Finset.card_le_card_of_forall_subsingleton (fun k k' => R k.1 k'.1 ∧ k.2 = k'.2) ?_ ?_
  · rintro ⟨s, t⟩ hk
    obtain ⟨n, hn⟩ := (hmem c _).mp hk
    obtain ⟨s', hs, hn'⟩ := h s t n hn
    exact ⟨(s', t), (hmem d _).mpr ⟨n, hn'⟩, hs, rfl⟩
  · rintro ⟨s', t'⟩ _ ⟨s₁, t₁⟩ ⟨_, hs₁, ht₁⟩ ⟨s₂, t₂⟩ ⟨_, hs₂, ht₂⟩
    exact Prod.ext (hR s₁ s₂ s' hs₁ hs₂) (ht₁.trans ht₂.symm)

theorem Engine.LeftBy.size_le (h : engine.LeftBy π [.evaluate t])
    (h' : engine'.LeftBy π' [.evaluate t]) : engine.cache.size ≤ engine'.cache.size := by
  refine Cache.size_le_of_forall_exists (R := Counterpart π π') (fun s₁ s₂ s' h₁ h₂ => ?_)
    fun _ _ _ hn => h.exists_counterpart h' hn
  exact h₁.symm.unique h₂.symm

/-- An evaluation under one policy ends if and only if the evaluation under another one does, with
the same normal form, and leaves a fresh engine with as many normal forms. -/
theorem policy_unobservable (π π' : Policy) (t : Term) :
    (∀ u : Term, Engine.Answers π {} (.evaluate t) u ↔ Engine.Answers π' {} (.evaluate t) u) ∧
    ∀ engine engine' : Engine, engine.LeftBy π [.evaluate t] → engine'.LeftBy π' [.evaluate t] →
      engine.cache.size = engine'.cache.size := by
  refine ⟨fun u => ?_, fun engine engine' h h' => Nat.le_antisymm (h.size_le h') (h'.size_le h)⟩
  have hanswers (π : Policy) : Engine.Answers π {} (.evaluate t) u ↔ NormalForm π (.base π) t u :=
    Engine.Filled.fresh.normalizes_iff
  rw [hanswers, hanswers]
  exact normalForm_base_iff

/-- Bindings become rules in the reverse order of the names. -/
private def reversing : Policy where
  digest r h := mixHash h r.hash
  arrange b := b.entries.reverse
  arrange_perm _ := List.reverse_perm _

/-- `[[f 'x 'y] -> [y x] [f A [f B C]]]` -/
private def twoBindings : Term :=
  .ofForm (.group [.group [.word "f", .quoted "x", .quoted "y"], .word "->",
    .group [.word "y", .word "x"],
    .group [.word "f", .word "A", .group [.word "f", .word "B", .word "C"]]])

/-- The rules for `x` and `y` come in different orders. -/
theorem policy_unobservable_reversed : ∃ engine engine' : Engine,
    engine.LeftBy .standard [.evaluate twoBindings] ∧
    engine'.LeftBy reversing [.evaluate twoBindings] ∧
    Engine.Answers reversing {} (.evaluate twoBindings)
      (.seq [.seq [.atom ⟨"C"⟩, .atom ⟨"B"⟩], .atom ⟨"A"⟩]) ∧
    engine.cache.size = engine'.cache.size := by
  have hresult (π : Policy) {u : Term} (hu : Engine.Answers π {} (.evaluate twoBindings) u) :
      ∃ engine : Engine, engine.LeftBy π [.evaluate twoBindings] :=
    exists_leftBy_iff.mpr
      (List.forall_mem_singleton.mpr ⟨u, (Engine.Filled.fresh.answers_iff (.evaluate _) u).mp hu⟩)
  have hu : Engine.Answers .standard {} (.evaluate twoBindings)
      (.seq [.seq [.atom ⟨"C"⟩, .atom ⟨"B"⟩], .atom ⟨"A"⟩]) :=
    Engine.Filled.fresh.normalizes_iff.mpr ⟨8, by decide +kernel⟩
  obtain ⟨hanswers, hsize⟩ := policy_unobservable .standard reversing twoBindings
  have hu' := (hanswers _).mp hu
  obtain ⟨engine, h⟩ := hresult _ hu
  obtain ⟨engine', h'⟩ := hresult _ hu'
  exact ⟨engine, engine', h, h', hu', hsize engine engine' h h'⟩

end ScopedRewriting
