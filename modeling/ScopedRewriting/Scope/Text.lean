import ScopedRewriting.Scope.Basic

/-!
# Written forms of rules and scopes
-/

namespace ScopedRewriting

def Rule.text : Rule → String
  | .empty => "empty"
  | .declaration => "declaration"
  | .subst a t => a.name ++ " ↦ " ++ t.text
  | .function p t _ => p.text ++ " -> " ++ t.text

/-- The rules of the scope, the oldest one first. -/
def Scope.text (s : Scope) : String :=
  "\x7b" ++ ", ".intercalate (s.rules.reverse.map Rule.text) ++ "\x7d"

end ScopedRewriting
