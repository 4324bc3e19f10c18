import ScopedRewriting.Proofs.Steps
import ScopedRewriting.Scope.Lexical

/-!
# The rules of scopes

Which rules there are in lexical scopes and in scopes that replace variables, and which scopes
rewriting in them gets to.
-/

namespace ScopedRewriting

namespace Scope

variable {π : Policy} {s : Scope}

/-! ## Lexical scopes -/

@[simp]
theorem rules_base (π : Policy) : (base π).rules = [.declaration] := rfl

theorem Lexical.declaration_mem (h : Lexical π s) : Rule.declaration ∈ s.rules := by
  induction h with
  | base => simp
  | declare p body _ ih => simp [ih]

theorem Lexical.mem_rules (h : Lexical π s) {r : Rule} (hr : r ∈ s.rules) :
    r = .declaration ∨ ∃ p body c, r = .function p body c ∧ Lexical π c := by
  induction h with
  | base =>
      left
      simpa using hr
  | @declare c p body hc ih =>
      rw [rules_extend π (by simp)] at hr
      rcases List.mem_cons.mp hr with rfl | hr
      · exact .inr ⟨p, body, c, rfl, hc⟩
      · exact ih hr

/-! ## Scopes that replace variables -/

theorem rules_extendMany {rs : List Rule} (h : ∀ r ∈ rs, r ≠ .empty) :
    (s.extendMany π rs).rules = rs.reverse ++ s.rules := by
  induction rs generalizing s with
  | nil => rfl
  | cons r rs ih =>
      have hr : r ≠ .empty := h r (by simp)
      have hrs := ih (s := s.extend π r) fun q hq => h q (by simp [hq])
      simpa [extendMany, hr] using hrs

theorem rules_ofBindings (π : Policy) (b : Bindings) :
    (ofBindings π b).rules = ((π.arrange b).map fun e => Rule.subst e.1 e.2).reverse := by
  have hsubst : ∀ r ∈ (π.arrange b).map fun e => Rule.subst e.1 e.2, r ≠ .empty := by
    intro r hr
    obtain ⟨e, _, rfl⟩ := List.mem_map.mp hr
    simp
  have h := rules_extendMany (π := π) (s := .nil) hsubst
  rwa [rules, List.append_nil] at h

theorem mem_rules_ofBindings {b : Bindings} {r : Rule} :
    r ∈ (ofBindings π b).rules ↔ ∃ e ∈ b.entries, r = .subst e.1 e.2 := by
  rw [rules_ofBindings, List.mem_reverse, List.mem_map]
  constructor
  · rintro ⟨e, he, rfl⟩
    exact ⟨e, (π.arrange_perm b).mem_iff.mp he, rfl⟩
  · rintro ⟨e, he, rfl⟩
    exact ⟨e, (π.arrange_perm b).mem_iff.mpr he, rfl⟩

theorem Replacing.mem_rules (h : Replacing π s) {r : Rule} (hr : r ∈ s.rules) :
    ∃ a t, r = .subst a t := by
  cases h with
  | intro b =>
      obtain ⟨e, _, rfl⟩ := mem_rules_ofBindings.mp hr
      exact ⟨e.1, e.2, rfl⟩

/-- A scope that replaces variables knows no declarations. -/
theorem Lexical.not_replacing (h : Lexical π s) (π' : Policy) : ¬ Replacing π' s := by
  intro hs
  obtain ⟨a, t, ha⟩ := hs.mem_rules h.declaration_mem
  cases ha

/-! ## Scopes that rewriting gets to -/

variable {N : Normalization} {s' : Scope} {t u : Term}

theorem Lexical.needs (h : Lexical π s) (hn : Needs π N s t s' u) :
    Lexical π s' ∨ OfMatch π s' := by
  cases hn with
  | element _ => exact .inl h
  | rule _ hr hr' =>
      rcases h.mem_rules hr with rfl | ⟨p, body, c, rfl, hc⟩
      · cases hr' with
        | declare _ _ => exact .inl (h.declare _ _)
      · cases hr' with
        | body hm => exact .inr (.intro h hr hm)
        | result _ _ => exact .inl hc

theorem Replacing.needs (h : Replacing π s) (hn : Needs π N s t s' u) : s' = s := by
  cases hn with
  | element _ => rfl
  | rule _ hr hr' =>
      obtain ⟨a, t, rfl⟩ := h.mem_rules hr
      cases hr'

end Scope

end ScopedRewriting
