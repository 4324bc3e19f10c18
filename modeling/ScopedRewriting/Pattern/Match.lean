import ScopedRewriting.Bindings
import ScopedRewriting.Pattern.Basic

/-!
# Matching terms against patterns

The bindings of the elements of a sequence are merged from left to right, so a variable that occurs
twice has to match equal terms.
-/

namespace ScopedRewriting

namespace Pattern

mutual
/-- The bindings under which the pattern is the term, jokers apart. -/
def match? : Pattern → Term → Option Bindings
  | .lit a, .atom b => if a = b then some .empty else none
  | .lit _, .seq _ => none
  | .var v, t => some (.single v t)
  | .joker, _ => some .empty
  | .seq ps, .seq ts => matchAll? .empty ps ts
  | .seq _, .atom _ => none

/-- Merges the bindings of the elements into `acc`. -/
def matchAll? (acc : Bindings) : List Pattern → List Term → Option Bindings
  | [], [] => some acc
  | p :: ps, t :: ts =>
      match match? p t with
      | none => none
      | some b =>
          match acc.merge b with
          | none => none
          | some acc => matchAll? acc ps ts
  | [], _ :: _ => none
  | _ :: _, [] => none
end

end Pattern

end ScopedRewriting
