import ScopedRewriting.Proofs.Chains
import ScopedRewriting.Scope.Shared
import Mathlib.Algebra.Order.BigOperators.Group.List
import Mathlib.Algebra.Order.Group.Nat
import Mathlib.Data.List.Forall2

/-!
# Shared scopes are lists of rules

Comparing shared scopes takes two shortcuts: it stops with yes at one and the same place, and with
no at different hashes. All that is held lies in one memory (`Held.Built.coherent`), so what lies at
one place is one; and the hashes follow from the rules (`SharedScope.LiesIn.hashed`), so scopes with
equal rules never have different hashes. Neither shortcut can be noticed: whatever hashes the policy
computes, a scope is the list of its rules (`scopes_faithful_to_rules`).
-/

namespace ScopedRewriting

variable {π : Policy} {s u c d : SharedScope} {r q : SharedRule} {m n : Nat}

/-! ## What scopes say as lists of rules -/

theorem Scope.alike_iff_forall₂ {s u : Scope} :
    s.Alike u ↔ List.Forall₂ Rule.Alike s.rules u.rules := by
  induction s generalizing u with
  | nil =>
      cases u with
      | nil => simp [rules, Scope.Alike.nil]
      | link k q u => constructor <;> intro h <;> cases h
  | link h r s ih =>
      cases u with
      | nil => constructor <;> intro h <;> cases h
      | link k q u =>
          rw [rules, rules, List.forall₂_cons, ← ih]
          constructor
          · intro halike
            cases halike with
            | link _ _ hr hs => exact ⟨hr, hs⟩
          · rintro ⟨hr, hs⟩
            exact .link h k hr hs

/-! ## Equal scopes are found to be equal -/

mutual
theorem SharedRule.beq_of_rule_eq : (r q : SharedRule) → r.rule = q.rule → r.beq q
  | .empty, .empty, _ => rfl
  | .declaration, .declaration, _ => rfl
  | .subst a t, .subst b u, h => by
      obtain ⟨rfl, rfl⟩ := Rule.subst.inj h
      simp [SharedRule.beq]
  | .function m p t c, .function n q u d, h => by
      obtain ⟨rfl, rfl, hc⟩ := Rule.function.inj h
      simp [SharedRule.beq, SharedScope.beq_of_scope_eq c d hc]

theorem SharedScope.beq_of_scope_eq : (s u : SharedScope) → s.scope = u.scope → s.beq u
  | .nil, .nil, _ => rfl
  | .link m h r s, .link n k q u, heq => by
      obtain ⟨rfl, hr, hs⟩ := Scope.link.inj heq
      simp [SharedScope.beq, SharedRule.beq_of_rule_eq r q hr, SharedScope.beq_of_scope_eq s u hs]
end

/-! ## One memory -/

/-- What lies at each place. -/
structure Memory where
  scopeAt : Nat → SharedScope
  ruleAt : Nat → SharedRule

/-- Both memories hold the same at the place. -/
def Memory.AgreeAt (M M' : Memory) (m : Nat) : Prop :=
  M'.scopeAt m = M.scopeAt m ∧ M'.ruleAt m = M.ruleAt m

variable {M M' : Memory}

mutual
/-- The memory holds the rule at its place, and all that it refers to at their places. -/
inductive SharedRule.LiesIn (π : Policy) (M : Memory) : SharedRule → Prop
  | empty : SharedRule.LiesIn π M .empty
  | declaration : SharedRule.LiesIn π M .declaration
  | subst (a : Atom) (t : Term) : SharedRule.LiesIn π M (.subst a t)
  | function {m : Nat} {p : Pattern} {t : Term} {c : SharedScope} :
      M.ruleAt m = .function m p t c → SharedScope.LiesIn π M c →
      SharedRule.LiesIn π M (.function m p t c)

/-- The memory holds each link of the scope at its place, with the hash that the policy computes. -/
inductive SharedScope.LiesIn (π : Policy) (M : Memory) : SharedScope → Prop
  | nil : SharedScope.LiesIn π M .nil
  | link {m : Nat} {r : SharedRule} {s : SharedScope} : r ≠ .empty →
      M.scopeAt m = .link m (π.digest r.rule s.hash) r s → SharedRule.LiesIn π M r →
      SharedScope.LiesIn π M s → SharedScope.LiesIn π M (.link m (π.digest r.rule s.hash) r s)
end

mutual
theorem SharedRule.LiesIn.congr {r : SharedRule} :
    r.LiesIn π M → (∀ m ∈ r.places, M.AgreeAt M' m) → r.LiesIn π M'
  | .empty, _ => .empty
  | .declaration, _ => .declaration
  | .subst a t, _ => .subst a t
  | .function hat hc, hM => by
      obtain ⟨hm, hplaces⟩ := List.forall_mem_cons.mp hM
      exact .function (hm.2.trans hat) (SharedScope.LiesIn.congr hc hplaces)

theorem SharedScope.LiesIn.congr {s : SharedScope} :
    s.LiesIn π M → (∀ m ∈ s.places, M.AgreeAt M' m) → s.LiesIn π M'
  | .nil, _ => .nil
  | .link hne hat hr hs, hM => by
      obtain ⟨hm, hplaces⟩ := List.forall_mem_cons.mp hM
      obtain ⟨hpr, hps⟩ := List.forall_mem_append.mp hplaces
      exact .link hne (hm.1.trans hat) (SharedRule.LiesIn.congr hr hpr)
        (SharedScope.LiesIn.congr hs hps)
end

mutual
theorem SharedRule.LiesIn.hashed {r : SharedRule} : r.LiesIn π M → Scope.HashedRule π r.rule
  | .empty => .empty
  | .declaration => .declaration
  | .subst a t => .subst a t
  | .function _ hc => .function _ _ (SharedScope.LiesIn.hashed hc)

theorem SharedScope.LiesIn.hashed {s : SharedScope} : s.LiesIn π M → Scope.Hashed π s.scope
  | .nil => .nil
  | .link (r := r) (s := s) hne _ hr hs => by
      rw [SharedScope.scope, ← SharedScope.hash_scope]
      exact .link (mt SharedRule.rule_eq_empty.mp hne) (SharedRule.LiesIn.hashed hr)
        (SharedScope.LiesIn.hashed hs)
end

mutual
/-- What lies at one place is one, so rules that are found to be equal are. -/
theorem SharedRule.LiesIn.eq_of_beq {r q : SharedRule} :
    r.LiesIn π M → q.LiesIn π M → r.beq q → r.rule = q.rule
  | .empty, .empty, _ => rfl
  | .declaration, .declaration, _ => rfl
  | .subst a t, .subst b u, h => by
      obtain ⟨rfl, rfl⟩ : a = b ∧ t = u := by simpa [SharedRule.beq] using h
      rfl
  | .function (m := m) (p := p) (t := t) (c := c) hat hc,
    .function (m := n) (p := q) (t := u) (c := d) hat' hd, h => by
      have hcases : m = n ∨ (p = q ∧ t = u) ∧ c.beq d := by simpa [SharedRule.beq] using h
      rcases hcases with rfl | ⟨⟨rfl, rfl⟩, hcd⟩
      · -- both are what the memory holds at the place
        rw [← hat, ← hat']
      · simp only [SharedRule.rule, SharedScope.LiesIn.eq_of_beq hc hd hcd]

theorem SharedScope.LiesIn.eq_of_beq {s u : SharedScope} :
    s.LiesIn π M → u.LiesIn π M → s.beq u → s.scope = u.scope
  | .nil, .nil, _ => rfl
  | .link (m := m) (r := r) (s := s) _ hat hr hs,
    .link (m := n) (r := q) (s := u) _ hat' hq hu, heq => by
      have hcases : m = n ∨ (π.digest r.rule s.hash = π.digest q.rule u.hash ∧ r.beq q) ∧
          s.beq u := by
        simpa [SharedScope.beq] using heq
      rcases hcases with rfl | ⟨⟨hhash, hrq⟩, hsu⟩
      · -- the links are one, and so is all behind them
        rw [← hat, ← hat']
      · rw [SharedScope.scope, SharedScope.scope, hhash, SharedRule.LiesIn.eq_of_beq hr hq hrq,
          SharedScope.LiesIn.eq_of_beq hs hu hsu]
end

theorem SharedRule.LiesIn.beq_iff_eq (hr : r.LiesIn π M) (hq : q.LiesIn π M) :
    r.beq q ↔ r.rule = q.rule :=
  ⟨hr.eq_of_beq hq, beq_of_rule_eq r q⟩

theorem SharedScope.LiesIn.beq_iff_eq (hs : s.LiesIn π M) (hu : u.LiesIn π M) :
    s.beq u ↔ s.scope = u.scope :=
  ⟨hs.eq_of_beq hu, beq_of_scope_eq s u⟩

theorem SharedRule.LiesIn.beq_iff (hr : r.LiesIn π M) (hq : q.LiesIn π M) :
    r.beq q ↔ r.rule.Alike q.rule := by
  rw [hr.beq_iff_eq hq, Rule.alike_iff_eq hr.hashed hq.hashed]

theorem SharedScope.LiesIn.beq_iff (hs : s.LiesIn π M) (hu : u.LiesIn π M) :
    s.beq u ↔ List.Forall₂ (fun r q => r.rule.Alike q.rule) s.rules u.rules := by
  rw [hs.beq_iff_eq hu, ← Scope.alike_iff_eq hs.hashed hu.hashed, Scope.alike_iff_forall₂,
    rules_scope, rules_scope, List.forall₂_map_left_iff, List.forall₂_map_right_iff]

theorem SharedScope.LiesIn.rules (hs : s.LiesIn π M) :
    ∀ r ∈ s.rules, r ≠ .empty ∧ r.LiesIn π M := by
  induction s with
  | nil => simp [SharedScope.rules]
  | link m h r s ih =>
      cases hs with
      | link hne _ hr hs => exact List.forall_mem_cons.mpr ⟨⟨hne, hr⟩, ih hs⟩

theorem SharedRule.LiesIn.closure (hr : r.LiesIn π M) : ∀ c ∈ r.closure?, c.LiesIn π M := by
  cases hr with
  | empty | declaration | subst _ _ => nofun
  | function _ hc =>
      rintro _ ⟨⟩
      exact hc

theorem SharedRule.LiesIn.of_plain (hr : r.closure? = none) : r.LiesIn π M := by
  cases r with
  | empty => exact .empty
  | declaration => exact .declaration
  | subst a t => exact .subst a t
  | function m p t c => exact absurd hr (by simp [closure?])

/-! ## What is held lies in one memory -/

namespace Memory

/-- The memory after the scope is stored at the place. -/
def putScope (M : Memory) (m : Nat) (s : SharedScope) : Memory :=
  { M with scopeAt := Function.update M.scopeAt m s }

def putRule (M : Memory) (m : Nat) (r : SharedRule) : Memory :=
  { M with ruleAt := Function.update M.ruleAt m r }

theorem agreeAt_putScope (M : Memory) (s : SharedScope) (h : n ≠ m) :
    M.AgreeAt (M.putScope m s) n :=
  ⟨by simp [putScope, h], rfl⟩

theorem agreeAt_putRule (M : Memory) (r : SharedRule) (h : n ≠ m) :
    M.AgreeAt (M.putRule m r) n :=
  ⟨rfl, by simp [putRule, h]⟩

end Memory

namespace Held

variable {h : Held}

/-- All that is held lies in the memory. -/
def LiesIn (π : Policy) (M : Memory) (h : Held) : Prop :=
  (∀ s ∈ h.scopes, s.LiesIn π M) ∧ ∀ r ∈ h.rules, r.LiesIn π M

theorem LiesIn.congr (hM : h.LiesIn π M) (hagree : ∀ m ∈ h.places, M.AgreeAt M' m) :
    h.LiesIn π M' := by
  obtain ⟨hscopes, hrules⟩ := List.forall_mem_append.mp hagree
  exact ⟨fun s hs => (hM.1 s hs).congr fun m hm => hscopes m (List.mem_flatMap_of_mem hs hm),
    fun r hr => (hM.2 r hr).congr fun m hm => hrules m (List.mem_flatMap_of_mem hr hm)⟩

theorem mem_places : n ∈ h.places ↔
    (∃ s ∈ h.scopes, n ∈ s.places) ∨ ∃ r ∈ h.rules, n ∈ r.places := by
  simp [places]

theorem mem_places_extend (hs : s ∈ h.scopes) (hr : r ∈ h.rules)
    (hn : n ∈ places ⟨s.extend π m r :: h.scopes, h.rules⟩) : n = m ∨ n ∈ h.places := by
  rw [mem_places] at hn ⊢
  rcases hn with ⟨u, hu, hn⟩ | hn
  · rcases List.mem_cons.mp hu with rfl | hu
    · rcases SharedScope.mem_places_extend hn with hn | hn | hn
      · exact .inl hn
      · exact .inr (.inr ⟨r, hr, hn⟩)
      · exact .inr (.inl ⟨s, hs, hn⟩)
    · exact .inr (.inl ⟨u, hu, hn⟩)
  · exact .inr (.inr hn)

/-- Taking the rules of a scope that is held takes no place. -/
theorem mem_places_rules (hu : u ∈ h.scopes)
    (hn : n ∈ places ⟨h.scopes, u.rules ++ h.rules⟩) : n ∈ h.places := by
  simp only [mem_places, List.mem_append] at hn ⊢
  rcases hn with hn | ⟨r, hr | hr, hn⟩
  · exact .inl hn
  · exact .inl ⟨u, hu, SharedScope.places_subset_of_mem_rules hr hn⟩
  · exact .inr ⟨r, hr, hn⟩

/-- There is a memory in which all that is held lies. -/
def Coherent (π : Policy) (h : Held) : Prop := ∃ M, h.LiesIn π M

namespace Coherent

theorem release {scopes : List SharedScope} {rules : List SharedRule} (hh : h.Coherent π)
    (hs : scopes ⊆ h.scopes) (hr : rules ⊆ h.rules) : Coherent π ⟨scopes, rules⟩ := by
  obtain ⟨M, hscopes, hrules⟩ := hh
  exact ⟨M, fun s h => hscopes s (hs h), fun r h => hrules r (hr h)⟩

theorem extend (hh : h.Coherent π) (hs : s ∈ h.scopes) (hr : r ∈ h.rules) (hm : m ∉ h.places) :
    Coherent π ⟨s.extend π m r :: h.scopes, h.rules⟩ := by
  obtain ⟨M, hM⟩ := hh
  by_cases hempty : r = .empty
  · subst hempty
    exact ⟨M, List.forall_mem_cons.mpr ⟨hM.1 s hs, hM.1⟩, hM.2⟩
  · have hkeep : h.LiesIn π (M.putScope m (s.extend π m r)) := hM.congr fun n hn =>
      M.agreeAt_putScope _ (ne_of_mem_of_not_mem hn hm)
    refine ⟨_, List.forall_mem_cons.mpr ⟨?_, hkeep.1⟩, hkeep.2⟩
    rw [SharedScope.extend_of_ne_empty hempty] at hkeep ⊢
    exact .link hempty (Function.update_self ..) (hkeep.2 r hr) (hkeep.1 s hs)

theorem function {p : Pattern} {t : Term} (hh : h.Coherent π) (hc : c ∈ h.scopes)
    (hm : m ∉ h.places) : Coherent π ⟨h.scopes, .function m p t c :: h.rules⟩ := by
  obtain ⟨M, hM⟩ := hh
  have hkeep : h.LiesIn π (M.putRule m (.function m p t c)) := hM.congr fun n hn =>
    M.agreeAt_putRule _ (ne_of_mem_of_not_mem hn hm)
  exact ⟨_, hkeep.1, List.forall_mem_cons.mpr
    ⟨.function (Function.update_self ..) (hkeep.1 c hc), hkeep.2⟩⟩

theorem extendMany {rs : List (Nat × SharedRule)} (hh : h.Coherent π) (hs : s ∈ h.scopes)
    (hrs : ∀ e ∈ rs, e.2 ∈ h.rules) (hnodup : (rs.map Prod.fst).Nodup)
    (hfree : ∀ e ∈ rs, e.1 ∉ h.places) :
    Coherent π ⟨s.extendMany π rs :: h.scopes, h.rules⟩ := by
  induction rs generalizing s h with
  | nil => exact hh.release (List.cons_subset.mpr ⟨hs, .refl _⟩) (.refl _)
  | cons e rs ih =>
      obtain ⟨he, hrs⟩ := List.forall_mem_cons.mp hrs
      obtain ⟨hm, hfree⟩ := List.forall_mem_cons.mp hfree
      obtain ⟨hnew, hnodup⟩ := List.nodup_cons.mp hnodup
      have hfree' : ∀ e' ∈ rs, e'.1 ∉ places ⟨s.extend π e.1 e.2 :: h.scopes, h.rules⟩ := by
        intro e' he' hmem
        rcases mem_places_extend hs he hmem with heq | hmem
        · exact hnew (heq ▸ List.mem_map_of_mem he')
        · exact hfree e' he' hmem
      -- the scopes in between are held, too, until the last rule is added
      have hrest := ih (hh.extend hs he hm) List.mem_cons_self hrs hnodup hfree'
      exact hrest.release (List.cons_subset_cons _ (List.subset_cons_self _ _)) (.refl _)

theorem rules (hh : h.Coherent π) (hu : u ∈ h.scopes) :
    Coherent π ⟨h.scopes, u.rules ++ h.rules⟩ := by
  obtain ⟨M, hM⟩ := hh
  have hrules : ∀ r ∈ u.rules, r.LiesIn π M := fun r hr => ((hM.1 u hu).rules r hr).2
  exact ⟨M, hM.1, List.forall_mem_append.mpr ⟨hrules, hM.2⟩⟩

theorem extendAll {places : List Nat} (hh : h.Coherent π) (hs : s ∈ h.scopes)
    (hu : u ∈ h.scopes) (hlength : places.length = u.rules.length) (hnodup : places.Nodup)
    (hfree : ∀ m ∈ places, m ∉ h.places) :
    Coherent π ⟨s.extendAll π u places :: h.scopes, h.rules⟩ := by
  have hfst : (places.zip u.rules.reverse).map Prod.fst = places :=
    List.map_fst_zip (by simp [hlength])
  have hmem : ∀ e ∈ places.zip u.rules.reverse, e.1 ∈ places ∧ e.2 ∈ u.rules ++ h.rules := by
    intro e he
    obtain ⟨hfst, hsnd⟩ := List.of_mem_zip (a := e.1) (b := e.2) he
    exact ⟨hfst, List.mem_append_left _ (List.mem_reverse.mp hsnd)⟩
  have hmany := (hh.rules hu).extendMany hs (fun e he => (hmem e he).2) (by rwa [hfst])
    fun e he hin => hfree e.1 (hmem e he).1 (mem_places_rules hu hin)
  exact hmany.release (.refl _) (List.subset_append_right _ _)

end Coherent

/-- All that comes to be held lies in one memory: new links and rules are stored at free places, and
nothing else is changed. -/
theorem Built.coherent (hb : Built π h) : h.Coherent π := by
  induction hb with
  | nothing => exact ⟨⟨fun _ => .nil, fun _ => .empty⟩, by simp, by simp⟩
  | empty _ ih =>
      obtain ⟨M, hM⟩ := ih
      exact ⟨M, List.forall_mem_cons.mpr ⟨.nil, hM.1⟩, hM.2⟩
  | extend _ hs hr hm ih => exact ih.extend hs hr hm
  | extendAll _ hs hu hlength hnodup hfree ih => exact ih.extendAll hs hu hlength hnodup hfree
  | plain _ hr ih =>
      obtain ⟨M, hM⟩ := ih
      exact ⟨M, hM.1, List.forall_mem_cons.mpr ⟨.of_plain hr, hM.2⟩⟩
  | function p t _ hc hm ih => exact ih.function hc hm
  | rule _ hs hr ih =>
      obtain ⟨M, hM⟩ := ih
      exact ⟨M, hM.1, List.forall_mem_cons.mpr ⟨((hM.1 _ hs).rules _ hr).2, hM.2⟩⟩
  | closure _ hr hc ih =>
      obtain ⟨M, hM⟩ := ih
      exact ⟨M, List.forall_mem_cons.mpr ⟨(hM.2 _ hr).closure _ hc, hM.1⟩, hM.2⟩
  | release _ hs hr ih => exact ih.release hs hr

end Held

/-! ## Chains -/

namespace SharedScope.LiesIn

/-- The chain lies in the memory that forgets where user-defined rules and closures lie. -/
theorem chain (hs : s.LiesIn π M) (hn : ∀ m ∈ s.places, m < n) :
    Chain.LiesIn π (fun m => (M.scopeAt m).chain) n s.chain := by
  induction s with
  | nil => exact .empty
  | link m h r s ih =>
      cases hs with
      | link hne hat hr hs =>
          obtain ⟨hm, hplaces⟩ := List.forall_mem_cons.mp hn
          have hrest := ih hs (List.forall_mem_append.mp hplaces).2
          have hlink : (SharedScope.link m (π.digest r.rule s.hash) r s).chain =
              ⟨.link (π.digest r.rule s.chain.scope.hash) r.rule s.chain.scope,
                m :: s.chain.marks⟩ := by
            simp [SharedScope.chain, scope, marks]
          rw [hlink]
          exact .link hrest hm (mt SharedRule.rule_eq_empty.mp hne) hr.hashed (by rw [hat, hlink])

theorem beq_eq_chain_beq (hs : s.LiesIn π M) (hu : u.LiesIn π M) :
    s.beq u = s.chain.beq u.chain := by
  have hlt : ∀ m ∈ s.places ++ u.places, m < (s.places ++ u.places).sum + 1 :=
    fun m hm => Nat.lt_succ_of_le (List.le_sum_of_mem hm)
  obtain ⟨hlts, hltu⟩ := List.forall_mem_append.mp hlt
  rw [Bool.eq_iff_iff, hs.beq_iff_eq hu, (hs.chain hlts).beq_iff (hu.chain hltu)]
  rfl

end SharedScope.LiesIn

/-! ## Scopes as lists of rules -/

namespace Held.Built

variable {h : Held}

theorem beq_iff_eq (hb : h.Built π) (hs : s ∈ h.scopes) (hu : u ∈ h.scopes) :
    s.beq u ↔ s.scope = u.scope := by
  obtain ⟨M, hscopes, -⟩ := hb.coherent
  exact (hscopes s hs).beq_iff_eq (hscopes u hu)

theorem rule_beq_iff_eq (hb : h.Built π) (hr : r ∈ h.rules) (hq : q ∈ h.rules) :
    r.beq q ↔ r.rule = q.rule := by
  obtain ⟨M, -, hrules⟩ := hb.coherent
  exact (hrules r hr).beq_iff_eq (hrules q hq)

theorem equivalence (hb : h.Built π) :
    Equivalence fun s u : { s // s ∈ h.scopes } => s.1.beq u.1 := by
  have hbeq (s u : { s // s ∈ h.scopes }) : s.1.beq u.1 ↔ s.1.scope = u.1.scope :=
    hb.beq_iff_eq s.2 u.2
  simp only [hbeq]
  exact ⟨fun _ => rfl, Eq.symm, Eq.trans⟩

theorem beq_extend (hb : h.Built π) (hs : s ∈ h.scopes) (hu : u ∈ h.scopes) (hr : r ∈ h.rules)
    (hq : q ∈ h.rules) (hsu : s.beq u) (hrq : r.beq q) (m n : Nat) :
    (s.extend π m r).beq (u.extend π n q) := by
  refine SharedScope.beq_of_scope_eq _ _ ?_
  rw [SharedScope.scope_extend, SharedScope.scope_extend, (hb.beq_iff_eq hs hu).mp hsu,
    (hb.rule_beq_iff_eq hr hq).mp hrq]

theorem beq_extendAll {places places' : List Nat} (hb : h.Built π) (hs : s ∈ h.scopes)
    (hu : u ∈ h.scopes) (hc : c ∈ h.scopes) (hd : d ∈ h.scopes) (hsu : s.beq u) (hcd : c.beq d)
    (hplaces : places.length = c.rules.length) (hplaces' : places'.length = d.rules.length) :
    (s.extendAll π c places).beq (u.extendAll π d places') := by
  refine SharedScope.beq_of_scope_eq _ _ ?_
  rw [SharedScope.scope_extendAll hplaces, SharedScope.scope_extendAll hplaces',
    (hb.beq_iff_eq hs hu).mp hsu, (hb.beq_iff_eq hc hd).mp hcd]

end Held.Built

/-- However scopes are built and whatever hashes the links store, a scope is the list of its rules.
None of them is the empty rule, and closures are built in the same way. Rules that are taken over
come in front. Scopes are found to be equal exactly if they have as many rules, and equal ones at
each position; user-defined rules are equal if their patterns, bodies and closures are. This is an
equivalence, and extending equal scopes by equal rules, one or many, yields equal scopes. Chains are
extended and compared in step. -/
theorem scopes_faithful_to_rules {h : Held} (hb : h.Built π) :
    (∀ s ∈ h.scopes, ∀ r ∈ s.rules, r ≠ .empty ∧
      ∀ c ∈ r.closure?, Held.Built π ⟨c :: h.scopes, h.rules⟩) ∧
    (∀ s ∈ h.scopes, ∀ u ∈ h.scopes, ∀ places : List Nat, places.length = u.rules.length →
      (s.extendAll π u places).rules = u.rules ++ s.rules) ∧
    (∀ s ∈ h.scopes, ∀ u ∈ h.scopes,
      (s.beq u ↔ s.rules.length = u.rules.length ∧
        ∀ (i : Nat) (hi : i < s.rules.length) (hj : i < u.rules.length),
          s.rules[i].rule.Alike u.rules[i].rule)) ∧
    (∀ r ∈ h.rules, ∀ q ∈ h.rules, r.beq q ↔ r.rule.Alike q.rule) ∧
    Equivalence (fun s u : { s // s ∈ h.scopes } => s.1.beq u.1) ∧
    (∀ s ∈ h.scopes, ∀ u ∈ h.scopes, s.beq u →
      (∀ r ∈ h.rules, ∀ q ∈ h.rules, r.beq q → ∀ m n : Nat,
        (s.extend π m r).beq (u.extend π n q)) ∧
      ∀ c ∈ h.scopes, ∀ d ∈ h.scopes, c.beq d → ∀ places places' : List Nat,
        places.length = c.rules.length → places'.length = d.rules.length →
        (s.extendAll π c places).beq (u.extendAll π d places')) ∧
    (∀ s ∈ h.scopes, ∀ u ∈ h.scopes, s.beq u = s.chain.beq u.chain ∧ ∀ m : Nat,
      (∀ r : SharedRule, (s.extend π m r).chain = s.chain.extend π m r.rule) ∧
      (s.extendAll π u (List.range' m u.rules.length)).chain =
        (s.chain.extendMany π m u.scope.rules.reverse).1) := by
  obtain ⟨M, hscopes, hrules⟩ := hb.coherent
  refine ⟨fun s hs r hr => ⟨((hscopes s hs).rules r hr).1, fun c hc => ?_⟩,
    fun s _ u hu places hplaces => ?_, fun s hs u hu => ?_,
    fun r hr q hq => (hrules r hr).beq_iff (hrules q hq), hb.equivalence,
    fun s hs u hu hsu => ⟨fun r hr q hq hrq m n => ?_, fun c hc d hd hcd _ _ hp hp' => ?_⟩,
    fun s hs u hu => ⟨?_, fun m => ⟨s.chain_extend m, s.chain_extendAll u m⟩⟩⟩
  · have hrule := (hb.rule hs hr).closure List.mem_cons_self hc
    exact hrule.release (.refl _) (List.subset_cons_self _ _)
  · exact SharedScope.rules_extendAll hplaces fun r hr => ((hscopes u hu).rules r hr).1
  · exact ((hscopes s hs).beq_iff (hscopes u hu)).trans List.forall₂_iff_get
  · exact hb.beq_extend hs hu hr hq hsu hrq m n
  · exact hb.beq_extendAll hs hu hc hd hsu hcd hp hp'
  · exact (hscopes s hs).beq_eq_chain_beq (hscopes u hu)

/-- The rule `[f 'x] -> x` at the given place, declared in the scope. -/
private def projection (place : Nat) (closure : SharedScope) : SharedRule :=
  .function place (.seq [.lit ⟨"f"⟩, .var ⟨"x"⟩]) (.atom ⟨"x"⟩) closure

/-- The rule and the base scope that it was declared in, built link by link. -/
private def direct : SharedScope :=
  (SharedScope.base .standard 0).extend .standard 2 (projection 1 (.base .standard 0))

/-- The rule alone, declared in a base scope of its own. -/
private def single : SharedScope :=
  SharedScope.nil.extend .standard 5 (projection 4 (.base .standard 3))

/-- A base scope that has taken the rule over. -/
private def assembled : SharedScope :=
  (SharedScope.base .standard 3).extendAll .standard single [6]

/-- The rule once more, declared in the scope. -/
private def directTwice : SharedScope := direct.extend .standard 8 (projection 7 direct)

/-- The rule once more, at the place of the link that the rule alone had. -/
private def assembledTwice : SharedScope := assembled.extend .standard 9 (projection 5 assembled)

private def twice : Held :=
  ⟨[directTwice, assembledTwice, assembled, direct],
    [projection 7 direct, projection 5 assembled]⟩

private theorem built_twice : twice.Built .standard := by
  have hbase : Held.Built .standard ⟨[.base .standard 3, .base .standard 0, .nil], []⟩ :=
    (Held.Built.nothing.empty.base (by decide)).base (by decide)
  have hdirect : Held.Built .standard
      ⟨[direct, .base .standard 3, .base .standard 0, .nil], [projection 1 (.base .standard 0)]⟩ :=
    (hbase.function (c := .base .standard 0) _ _ (by simp) (by decide)).extend (m := 2)
      (by simp) (by simp [projection]) (by decide)
  have hsingle : Held.Built .standard
      ⟨[single, direct, .base .standard 3, .base .standard 0, .nil],
        [projection 4 (.base .standard 3), projection 1 (.base .standard 0)]⟩ :=
    (hdirect.function (c := .base .standard 3) _ _ (by simp) (by decide)).extend (m := 5)
      (by simp) (by simp [projection]) (by decide)
  have hassembled : Held.Built .standard
      ⟨[assembled, single, direct, .base .standard 3, .base .standard 0, .nil],
        [projection 4 (.base .standard 3), projection 1 (.base .standard 0)]⟩ :=
    hsingle.extendAll (s := .base .standard 3) (u := single) (by simp) (by simp) rfl (by decide)
      (by decide)
  have hreleased : Held.Built .standard ⟨[assembled, direct], []⟩ :=
    hassembled.release (by simp) (by simp)
  have hassembledTwice : Held.Built .standard
      ⟨[assembledTwice, assembled, direct], [projection 5 assembled]⟩ :=
    (hreleased.function (c := assembled) _ _ (by simp) (by decide)).extend (m := 9)
      (by simp) (by simp [projection]) (by decide)
  exact (hassembledTwice.function (c := direct) _ _ (by simp) (by decide)).extend (m := 8)
    (by simp) (by simp [projection]) (by decide)

/-- Scopes that were built apart, closures included, are found to be equal, and remain so when each
gets its rule a third time. -/
theorem scopes_faithful_to_rules_apart :
    twice.Built .standard ∧ directTwice ∈ twice.scopes ∧ assembledTwice ∈ twice.scopes ∧
    (∀ m ∈ directTwice.places, m ∉ assembledTwice.places) ∧
    directTwice.beq assembledTwice ∧ directTwice.chain.beq assembledTwice.chain ∧
    (directTwice.extendAll .standard assembledTwice [10, 11, 12]).rules =
      assembledTwice.rules ++ directTwice.rules ∧
    (directTwice.extend .standard 10 (projection 7 direct)).beq
      (assembledTwice.extend .standard 11 (projection 5 assembled)) := by
  obtain ⟨-, hall, hlists, hrules, -, hcongr, hchains⟩ := scopes_faithful_to_rules built_twice
  have hs : directTwice ∈ twice.scopes := by simp [twice]
  have hu : assembledTwice ∈ twice.scopes := by simp [twice]
  have halike : (projection 7 direct).rule.Alike (projection 5 assembled).rule := by
    have hclosure : direct.scope = assembled.scope := rfl
    exact .function _ _ (hclosure ▸ .refl _)
  have heq : directTwice.beq assembledTwice := by
    refine (hlists _ hs _ hu).mpr ⟨rfl, fun i hi _ => ?_⟩
    match i, hi with
    | 0, _ => exact halike
    | 1, _ => exact .refl _
    | 2, _ => exact .refl _
  have hrule : (projection 7 direct).beq (projection 5 assembled) :=
    (hrules _ (by simp [twice]) _ (by simp [twice])).mpr halike
  exact ⟨built_twice, hs, hu, by decide, heq, (hchains _ hs _ hu).1 ▸ heq, hall _ hs _ hu _ rfl,
    (hcongr _ hs _ hu heq).1 _ (by simp [twice]) _ (by simp [twice]) hrule 10 11⟩

end ScopedRewriting
