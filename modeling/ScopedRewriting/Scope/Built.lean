import ScopedRewriting.Scope.Chain
import ScopedRewriting.Scope.Lexical

/-!
# Building chains

Chains are built from the empty one by adding a rule or all rules of another chain. The closure of a
rule is the scope of a chain that is there before. Every new link has a mark of its own, and stores
the hash that the policy computes, so equal rules are the same rules (`Rule.Alike.eq`).
-/

namespace ScopedRewriting

variable {π : Policy} {s u : Scope} {r q : Rule}

/-! ## Equal rules -/

mutual
/-- The rules are equal. Closures are compared by their rules, whatever hashes they store. -/
inductive Rule.Alike : Rule → Rule → Prop
  | empty : Rule.Alike .empty .empty
  | declaration : Rule.Alike .declaration .declaration
  | subst (a : Atom) (t : Term) : Rule.Alike (.subst a t) (.subst a t)
  | function (p : Pattern) (t : Term) {c d : Scope} : Scope.Alike c d →
      Rule.Alike (.function p t c) (.function p t d)

/-- The scopes have equal rules in the same order. -/
inductive Scope.Alike : Scope → Scope → Prop
  | nil : Scope.Alike .nil .nil
  | link (h k : UInt64) {r q : Rule} {s u : Scope} : Rule.Alike r q → Scope.Alike s u →
      Scope.Alike (.link h r s) (.link k q u)
end

mutual
theorem Rule.Alike.refl : (r : Rule) → r.Alike r
  | .empty => .empty
  | .declaration => .declaration
  | .subst a t => .subst a t
  | .function p t c => .function p t (Scope.Alike.refl c)

theorem Scope.Alike.refl : (s : Scope) → s.Alike s
  | .nil => .nil
  | .link h r s => .link h h (Rule.Alike.refl r) (Scope.Alike.refl s)
end

mutual
theorem Rule.Alike.symm {r q : Rule} : r.Alike q → q.Alike r
  | .empty => .empty
  | .declaration => .declaration
  | .subst a t => .subst a t
  | .function p t h => .function p t (Scope.Alike.symm h)

theorem Scope.Alike.symm {s u : Scope} : s.Alike u → u.Alike s
  | .nil => .nil
  | .link h k hr hs => .link k h (Rule.Alike.symm hr) (Scope.Alike.symm hs)
end

mutual
theorem Rule.Alike.eq {r q : Rule} :
    r.Alike q → Scope.HashedRule π r → Scope.HashedRule π q → r = q
  | .empty, _, _ => rfl
  | .declaration, _, _ => rfl
  | .subst _ _, _, _ => rfl
  | .function _ _ h, .function _ _ hc, .function _ _ hd => by rw [Scope.Alike.eq h hc hd]

theorem Scope.Alike.eq {s u : Scope} :
    s.Alike u → Scope.Hashed π s → Scope.Hashed π u → s = u
  | .nil, _, _ => rfl
  | .link _ _ hr hs, .link _ hr₁ hs₁, .link _ hr₂ hs₂ => by
      rw [Rule.Alike.eq hr hr₁ hr₂, Scope.Alike.eq hs hs₁ hs₂]
end

theorem Rule.alike_iff_eq (hr : Scope.HashedRule π r) (hq : Scope.HashedRule π q) :
    r.Alike q ↔ r = q :=
  ⟨fun h => h.eq hr hq, fun h => h ▸ .refl r⟩

theorem Scope.alike_iff_eq (hs : Scope.Hashed π s) (hu : Scope.Hashed π u) : s.Alike u ↔ s = u :=
  ⟨fun h => h.eq hs hu, fun h => h ▸ .refl s⟩

/-! ## Building -/

def Rule.closure? : Rule → Option Scope
  | .function _ _ c => some c
  | _ => none

theorem Scope.HashedRule.of_closure (h : ∀ c ∈ r.closure?, Scope.Hashed π c) :
    Scope.HashedRule π r := by
  cases r with
  | empty => exact .empty
  | declaration => exact .declaration
  | subst a t => exact .subst a t
  | function p t c => exact .function p t (h c rfl)

theorem Scope.Hashed.rule (h : Scope.Hashed π s) : ∀ r ∈ s.rules, Scope.HashedRule π r := by
  induction s with
  | nil => simp [rules]
  | link k r s ih =>
      cases h with
      | link _ hr hs => exact List.forall_mem_cons.mpr ⟨hr, ih hs⟩

namespace Chain

/-- The chains are built one after the other, the last one first, and no link has the mark `n` or a
greater one. -/
inductive Built (π : Policy) : List Chain → Nat → Prop
  | nothing : Built π [] 0
  | empty {cs : List Chain} {n : Nat} : Built π cs n → Built π (.empty :: cs) n
  | extend {cs : List Chain} {n : Nat} {c : Chain} {r : Rule} : Built π cs n → c ∈ cs →
      (∀ s ∈ r.closure?, ∃ d ∈ cs, d.scope = s) → Built π (c.extend π n r :: cs) (n + 1)
  | extendAll {cs : List Chain} {n : Nat} {c d : Chain} : Built π cs n → c ∈ cs → d ∈ cs →
      Built π ((c.extendMany π n d.scope.rules.reverse).1 :: cs)
        (c.extendMany π n d.scope.rules.reverse).2

end Chain

end ScopedRewriting
