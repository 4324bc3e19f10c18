import ScopedRewriting.Scope.Built

/-!
# Shared scopes

In memory each link of a scope and each user-defined rule lies at a place of its own, also inside of
closures, and scopes share what they have in common. Comparing stops at what lies at one place. A
place is free again once nothing that is held refers to it.
-/

namespace ScopedRewriting

mutual

/-- A rule in memory. A user-defined rule refers to the scope that it was declared in. -/
inductive SharedRule where
  | empty
  | declaration
  | subst (atom : Atom) (term : Term)
  | function (place : Nat) (pattern : Pattern) (body : Term) (closure : SharedScope)

/-- A scope in memory. -/
inductive SharedScope where
  | nil
  | link (place : Nat) (hash : UInt64) (rule : SharedRule) (outer : SharedScope)

end

mutual

/-- The rule, wherever it lies. -/
def SharedRule.rule : SharedRule → Rule
  | .empty => .empty
  | .declaration => .declaration
  | .subst a t => .subst a t
  | .function _ p t c => .function p t c.scope

/-- The scope, wherever its links lie. -/
def SharedScope.scope : SharedScope → Scope
  | .nil => .nil
  | .link _ h r s => .link h r.rule s.scope

end

mutual

/-- The places of the rule and of all that it refers to. -/
def SharedRule.places : SharedRule → List Nat
  | .empty | .declaration | .subst .. => []
  | .function m _ _ c => m :: c.places

def SharedScope.places : SharedScope → List Nat
  | .nil => []
  | .link m _ r s => m :: (r.places ++ s.places)

end

mutual

/-- User-defined rules at one place are equal at once; the closures of others are compared as scopes
are. -/
def SharedRule.beq : SharedRule → SharedRule → Bool
  | .empty, .empty => true
  | .declaration, .declaration => true
  | .subst a t, .subst b u => a == b && t == u
  | .function m p t c, .function n q u d => m == n || (p == q && t == u && c.beq d)
  | _, _ => false

/-- Compares link by link, up to the first link that both share. The hashes are compared before the
rules. -/
def SharedScope.beq : SharedScope → SharedScope → Bool
  | .nil, .nil => true
  | .link m h r s, .link n k q u => m == n || (h == k && r.beq q && s.beq u)
  | _, _ => false

end

def SharedRule.closure? : SharedRule → Option SharedScope
  | .function _ _ _ c => some c
  | _ => none

@[simp]
theorem SharedRule.rule_eq_empty {r : SharedRule} : r.rule = .empty ↔ r = .empty := by
  cases r <;> simp [rule]

namespace SharedScope

variable {π : Policy} {s u : SharedScope} {r : SharedRule} {m n : Nat}

/-- Induction along the links, closures left aside. -/
@[induction_eliminator]
theorem linkInduction {motive : SharedScope → Prop} (nil : motive .nil)
    (link : ∀ place hash rule outer, motive outer → motive (.link place hash rule outer))
    (s : SharedScope) : motive s :=
  match s with
  | .nil => nil
  | .link place hash rule outer => link place hash rule outer (linkInduction nil link outer)

def hash : SharedScope → UInt64
  | .nil => 0
  | .link _ h _ _ => h

/-- The rules, the most recent one first. -/
def rules : SharedScope → List SharedRule
  | .nil => []
  | .link _ _ r s => r :: s.rules

/-- The places of the links, the most recent one first. -/
def marks : SharedScope → List Nat
  | .nil => []
  | .link m _ _ s => m :: s.marks

/-- The chain of the links; where user-defined rules and the links of closures lie is forgotten. -/
def chain (s : SharedScope) : Chain := ⟨s.scope, s.marks⟩

/-- Adds a rule in a new link at the given place. The empty rule adds nothing. -/
def extend (π : Policy) (s : SharedScope) (place : Nat) : SharedRule → SharedScope
  | .empty => s
  | r => .link place (π.digest r.rule s.hash) r s

def base (π : Policy) (place : Nat) : SharedScope := extend π .nil place .declaration

/-- Adds rules one after the other, each in a link at the place that stands with it. -/
def extendMany (π : Policy) (s : SharedScope) (rules : List (Nat × SharedRule)) : SharedScope :=
  rules.foldl (fun s e => s.extend π e.1 e.2) s

/-- Adds all rules of another scope in their order; the new links lie at the given places. The rules
themselves are shared. -/
def extendAll (π : Policy) (s other : SharedScope) (places : List Nat) : SharedScope :=
  s.extendMany π (places.zip other.rules.reverse)

@[simp]
theorem hash_scope (s : SharedScope) : s.scope.hash = s.hash := by
  cases s <;> rfl

@[simp]
theorem rules_scope (s : SharedScope) : s.scope.rules = s.rules.map SharedRule.rule := by
  induction s with
  | nil => rfl
  | link m h r s ih => exact congrArg (r.rule :: ·) ih

theorem extend_of_ne_empty (h : r ≠ .empty) :
    s.extend π m r = .link m (π.digest r.rule s.hash) r s := by
  cases r <;> first | exact absurd rfl h | rfl

@[simp]
theorem scope_extend (s : SharedScope) (m : Nat) (r : SharedRule) :
    (s.extend π m r).scope = s.scope.extend π r.rule := by
  cases r <;> simp [extend, Scope.extend, scope, SharedRule.rule]

@[simp]
theorem chain_extend (s : SharedScope) (m : Nat) (r : SharedRule) :
    (s.extend π m r).chain = s.chain.extend π m r.rule := by
  cases r <;> simp [extend, Chain.extend, Scope.extend, chain, scope, marks, SharedRule.rule]

theorem rules_extend (h : r ≠ .empty) : (s.extend π m r).rules = r :: s.rules := by
  rw [extend_of_ne_empty h, rules]

theorem rules_extendMany {rs : List (Nat × SharedRule)} (h : ∀ e ∈ rs, e.2 ≠ .empty) :
    (s.extendMany π rs).rules = (rs.map Prod.snd).reverse ++ s.rules := by
  induction rs generalizing s with
  | nil => rfl
  | cons e rs ih =>
      obtain ⟨he, hrs⟩ := List.forall_mem_cons.mp h
      have hrest := ih (s := s.extend π e.1 e.2) hrs
      rw [rules_extend he] at hrest
      simpa [extendMany] using hrest

theorem scope_extendMany (s : SharedScope) (rs : List (Nat × SharedRule)) :
    (s.extendMany π rs).scope = s.scope.extendMany π ((rs.map Prod.snd).map SharedRule.rule) := by
  induction rs generalizing s with
  | nil => rfl
  | cons e rs ih => simpa [extendMany, Scope.extendMany] using ih (s.extend π e.1 e.2)

section ExtendAll

variable {places : List Nat} (hplaces : places.length = u.rules.length)

include hplaces

theorem map_snd_zip_rules : (places.zip u.rules.reverse).map Prod.snd = u.rules.reverse :=
  List.map_snd_zip (by simp [hplaces])

theorem rules_extendAll (h : ∀ r ∈ u.rules, r ≠ .empty) :
    (s.extendAll π u places).rules = u.rules ++ s.rules := by
  have hne : ∀ e ∈ places.zip u.rules.reverse, e.2 ≠ .empty := by
    intro e he
    have hmem : e.2 ∈ u.rules.reverse :=
      map_snd_zip_rules hplaces ▸ List.mem_map_of_mem he
    exact h e.2 (List.mem_reverse.mp hmem)
  rw [extendAll, rules_extendMany hne, map_snd_zip_rules hplaces, List.reverse_reverse]

theorem scope_extendAll : (s.extendAll π u places).scope = s.scope.extendAll π u.scope := by
  rw [extendAll, scope_extendMany, map_snd_zip_rules hplaces, List.map_reverse, ← rules_scope,
    Scope.extendAll]

end ExtendAll

theorem chain_extendMany (s : SharedScope) (m : Nat) (rs : List SharedRule) :
    (s.extendMany π ((List.range' m rs.length).zip rs)).chain =
      (s.chain.extendMany π m (rs.map SharedRule.rule)).1 := by
  induction rs generalizing s m with
  | nil => rfl
  | cons r rs ih =>
      rw [List.length_cons, List.range'_succ, List.zip_cons_cons, extendMany, List.foldl_cons,
        ← extendMany, ih, chain_extend]
      rfl

/-- With marks that count, chains take over rules as shared scopes do. -/
theorem chain_extendAll (s u : SharedScope) (m : Nat) :
    (s.extendAll π u (List.range' m u.rules.length)).chain =
      (s.chain.extendMany π m u.scope.rules.reverse).1 := by
  rw [extendAll, ← List.length_reverse, chain_extendMany, rules_scope, List.map_reverse]

theorem mem_places_extend (hn : n ∈ (s.extend π m r).places) :
    n = m ∨ n ∈ r.places ∨ n ∈ s.places := by
  by_cases hempty : r = .empty
  · subst hempty
    exact .inr (.inr hn)
  · rw [extend_of_ne_empty hempty, places] at hn
    simpa using hn

theorem places_subset_of_mem_rules (hr : r ∈ s.rules) : r.places ⊆ s.places := by
  induction s with
  | nil => simp [rules] at hr
  | link m h q s ih =>
      intro n hn
      rw [places, List.mem_cons, List.mem_append]
      rcases List.mem_cons.mp hr with rfl | hr
      · exact .inr (.inl hn)
      · exact .inr (.inr (ih hr hn))

end SharedScope

/-- The scopes and the rules that are held from outside. -/
structure Held where
  scopes : List SharedScope
  rules : List SharedRule

namespace Held

variable {π : Policy}

/-- The places of all that can be reached. -/
def places (h : Held) : List Nat :=
  h.scopes.flatMap SharedScope.places ++ h.rules.flatMap SharedRule.places

/-- What can come to be held. Whatever is new lies at places that are free at that time; a rule is
taken from a scope and a closure from a rule without copying. -/
inductive Built (π : Policy) : Held → Prop
  | nothing : Built π ⟨[], []⟩
  | empty {h : Held} : Built π h → Built π ⟨.nil :: h.scopes, h.rules⟩
  | extend {h : Held} {s : SharedScope} {r : SharedRule} {m : Nat} : Built π h →
      s ∈ h.scopes → r ∈ h.rules → m ∉ h.places → Built π ⟨s.extend π m r :: h.scopes, h.rules⟩
  | extendAll {h : Held} {s u : SharedScope} {places : List Nat} : Built π h →
      s ∈ h.scopes → u ∈ h.scopes → places.length = u.rules.length → places.Nodup →
      (∀ m ∈ places, m ∉ h.places) → Built π ⟨s.extendAll π u places :: h.scopes, h.rules⟩
  | plain {h : Held} {r : SharedRule} : Built π h → r.closure? = none →
      Built π ⟨h.scopes, r :: h.rules⟩
  | function {h : Held} {c : SharedScope} {m : Nat} (p : Pattern) (t : Term) : Built π h →
      c ∈ h.scopes → m ∉ h.places → Built π ⟨h.scopes, .function m p t c :: h.rules⟩
  | rule {h : Held} {s : SharedScope} {r : SharedRule} : Built π h → s ∈ h.scopes →
      r ∈ s.rules → Built π ⟨h.scopes, r :: h.rules⟩
  | closure {h : Held} {r : SharedRule} {c : SharedScope} : Built π h → r ∈ h.rules →
      c ∈ r.closure? → Built π ⟨c :: h.scopes, h.rules⟩
  | release {h : Held} {scopes : List SharedScope} {rules : List SharedRule} : Built π h →
      scopes ⊆ h.scopes → rules ⊆ h.rules → Built π ⟨scopes, rules⟩

theorem Built.base {h : Held} {m : Nat} (hb : Built π h) (hm : m ∉ h.places) :
    Built π ⟨.base π m :: h.scopes, h.rules⟩ := by
  have hdeclaration : Built π ⟨.nil :: h.scopes, .declaration :: h.rules⟩ := hb.empty.plain rfl
  have hnew := hdeclaration.extend List.mem_cons_self List.mem_cons_self (m := m)
    (by simpa [places, SharedScope.places, SharedRule.places] using hm)
  exact hnew.release (List.cons_subset_cons _ (List.subset_cons_self _ _))
    (List.subset_cons_self _ _)

end Held

end ScopedRewriting
