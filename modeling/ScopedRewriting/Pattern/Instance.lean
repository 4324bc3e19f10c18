import ScopedRewriting.Pattern.Match

/-!
# Instances of patterns

What it means that a term is an instance of a pattern is said here without searching for bindings.
-/

namespace ScopedRewriting

namespace Pattern

mutual
/-- The term is the pattern with its variables replaced as the bindings say, and each joker by some
term. -/
inductive Instance (b : Bindings) : Pattern → Term → Prop
  | lit (a : Atom) : Instance b (.lit a) (.atom a)
  | var {v : Atom} {t : Term} : b.get? v = some t → Instance b (.var v) t
  | joker (t : Term) : Instance b .joker t
  | seq {ps : List Pattern} {ts : List Term} : Instances b ps ts → Instance b (.seq ps) (.seq ts)

inductive Instances (b : Bindings) : List Pattern → List Term → Prop
  | nil : Instances b [] []
  | cons {p : Pattern} {t : Term} {ps : List Pattern} {ts : List Term} :
      Instance b p t → Instances b ps ts → Instances b (p :: ps) (t :: ts)
end

/-- The bindings bind the variables of the pattern and no others. -/
def BoundBy (p : Pattern) (b : Bindings) : Prop :=
  ∀ v, (b.get? v).isSome ↔ v ∈ p.vars

theorem Instances.length_eq {b : Bindings} {ps : List Pattern} {ts : List Term} :
    Instances b ps ts → ps.length = ts.length
  | .nil => rfl
  | .cons _ h => congrArg (· + 1) h.length_eq

end Pattern

end ScopedRewriting
