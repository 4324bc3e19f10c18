import ScopedRewriting.Scope.Basic
import ScopedRewriting.Term.Substitution

/-!
# Renaming atoms

Names have a meaning only by the arrow, the joker and the mark of variables. A renaming of atoms
that leaves these alone goes through patterns, bindings, rules and scopes; the hashes of the links
are those of the renamed rules.
-/

namespace ScopedRewriting

/-- Different atoms have different new names, and the atoms with a meaning keep it. -/
structure Atom.Renaming (f : Atom → Atom) : Prop where
  injective : Function.Injective f
  arrow : f arrow = arrow
  joker : f joker = joker
  marked (a : Atom) : f a.marked = (f a).marked
  /-- Marked names are names of marked atoms. -/
  unmarked {a : Atom} : (f a).unmarked?.isSome → a.unmarked?.isSome

def Term.Directive.rename (f : Atom → Atom) (d : Term.Directive) : Term.Directive :=
  ⟨d.pattern.rename f, d.replacement.rename f, d.subject.rename f⟩

namespace Pattern

mutual
def rename (f : Atom → Atom) : Pattern → Pattern
  | .lit a => .lit (f a)
  | .var v => .var (f v)
  | .seq ps => .seq (renameAll f ps)
  | .joker => .joker

def renameAll (f : Atom → Atom) : List Pattern → List Pattern
  | [] => []
  | p :: ps => p.rename f :: renameAll f ps
end

end Pattern

/-- The bindings of the renamed variables to the renamed terms. -/
def Bindings.rename (f : Atom → Atom) (b : Bindings) : Bindings :=
  b.entries.foldr (fun e c => c.insert (f e.1) (e.2.rename f)) empty

mutual
def Rule.rename (π : Policy) (f : Atom → Atom) : Rule → Rule
  | .empty => .empty
  | .declaration => .declaration
  | .subst a t => .subst (f a) (t.rename f)
  | .function p body c => .function (p.rename f) (body.rename f) (c.rename π f)

def Scope.rename (π : Policy) (f : Atom → Atom) : Scope → Scope
  | .nil => .nil
  | .link _ r s => .link (π.digest (r.rename π f) (s.rename π f).hash) (r.rename π f) (s.rename π f)
end

end ScopedRewriting
