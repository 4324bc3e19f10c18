import ScopedRewriting.Scope.Basic
import ScopedRewriting.Text.Quoted

/-!
# Showing how values are built

Inspecting a value shows the constructors that it is built from. Closures are left out, because
they may be arbitrarily large.
-/

namespace ScopedRewriting

/-- Texts in brackets, a comma between any two. -/
def listed (texts : List String) : String :=
  "[" ++ ", ".intercalate texts ++ "]"

def Atom.inspect (a : Atom) : String :=
  "Atom(" ++ quoted a.name ++ ")"

mutual
def Term.inspect : Term → String
  | .atom a => "Atom(" ++ a.inspect ++ ")"
  | .seq ts => "Seq(Seq(" ++ listed (Term.inspectAll ts) ++ "))"

def Term.inspectAll : List Term → List String
  | [] => []
  | t :: ts => t.inspect :: Term.inspectAll ts
end

mutual
def Pattern.inspect : Pattern → String
  | .lit a => "Lit(" ++ a.inspect ++ ")"
  | .var v => "Var(" ++ v.inspect ++ ")"
  | .seq ps => "Seq(" ++ listed (Pattern.inspectAll ps) ++ ")"
  | .joker => "Joker"

def Pattern.inspectAll : List Pattern → List String
  | [] => []
  | p :: ps => p.inspect :: Pattern.inspectAll ps
end

def Rule.inspect : Rule → String
  | .empty => "Empty"
  | .declaration => "Declaration"
  | .subst a t => "Subst(" ++ a.inspect ++ ", " ++ t.inspect ++ ")"
  | .function p t _ =>
      "Function(Function \x7b pattern: " ++ p.inspect ++ ", body: " ++ t.inspect ++ ", .. \x7d)"

/-- The rules, the most recent one first. -/
def Scope.inspect (s : Scope) : String :=
  listed (s.rules.map Rule.inspect)

end ScopedRewriting
