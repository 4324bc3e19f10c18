import ScopedRewriting.Scope.Basic

/-!
# Shapes of scopes

The scopes of declarations are lexical: below a user-defined rule is the scope that it was declared
in. The scopes of matches only replace variables.
-/

namespace ScopedRewriting

namespace Scope

variable (π : Policy)

/-- The scope is the base scope, or comes from it by declarations. -/
inductive Lexical : Scope → Prop
  | base : Lexical (.base π)
  | declare {s : Scope} (p : Pattern) (body : Term) :
      Lexical s → Lexical (s.extend π (.function p body s))

/-- The scope replaces the variables that the bindings bind. -/
inductive Replacing : Scope → Prop
  | intro (b : Bindings) : Replacing (.ofBindings π b)

/-- The scope replaces what a rule of a lexical scope has bound in a match. -/
inductive OfMatch : Scope → Prop
  | intro {s : Scope} {p : Pattern} {body : Term} {c : Scope} {t : Term} {b : Bindings} :
      Lexical π s → .function p body c ∈ s.rules → p.match? t = some b →
      OfMatch (.ofBindings π b)

mutual
/-- The hashes of the links are those that the policy computes, also inside of the rules. -/
inductive Hashed : Scope → Prop
  | nil : Hashed .nil
  | link {r : Rule} {s : Scope} : r ≠ .empty → HashedRule r → Hashed s →
      Hashed (.link (π.digest r s.hash) r s)

inductive HashedRule : Rule → Prop
  | empty : HashedRule .empty
  | declaration : HashedRule .declaration
  | subst (a : Atom) (t : Term) : HashedRule (.subst a t)
  | function (p : Pattern) (t : Term) {s : Scope} : Hashed s → HashedRule (.function p t s)
end

variable {π}

theorem Hashed.extend {s : Scope} {r : Rule} (hs : Hashed π s) (hr : HashedRule π r) :
    Hashed π (s.extend π r) := by
  by_cases h : r = .empty
  · subst h
    exact hs
  · cases r with
    | empty => exact absurd rfl h
    | declaration => exact .link h hr hs
    | subst a t => exact .link h hr hs
    | function p t c => exact .link h hr hs

theorem OfMatch.replacing {s : Scope} (h : OfMatch π s) : Replacing π s := by
  cases h with
  | intro _ _ _ => exact .intro _

theorem Lexical.hashed {s : Scope} (h : Lexical π s) : Hashed π s := by
  induction h with
  | base => exact Hashed.nil.extend .declaration
  | declare p body _ ih => exact ih.extend (.function p body ih)

end Scope

end ScopedRewriting
