import ScopedRewriting.Engine.Job
import ScopedRewriting.Source.Reader

/-!
# Rewriting to normal form

The elements of a sequence are rewritten to normal form before the sequence itself. Then the first
rule that applies is applied, the most recent rule coming first, until the term does not change
anymore. Normal forms are memorized for each scope.

How subterms and the results of rules come to normal form is a parameter of the single steps
(`norm`); `normalize` is the one recursion, in an allowance of steps.
-/

namespace ScopedRewriting

/-- A way to bring a term to normal form in a scope. -/
abbrev Normalizer (m : Type → Type) := Scope → Term → m Term

section

variable {m : Type → Type} [Monad m] [MonadRequest m]

/-- The pattern that a term says. Its variables are interned, up to the first directive, which no
pattern may hold. -/
def Pattern.create (t : Term) : m (Option Pattern) := do
  internAll (varsBeforeDirective t)
  return ofTerm? t

/-- Brings the elements of a sequence to normal form. -/
def normalizeElements (norm : Term → m Term) : Term → m Term
  | .atom a => return .atom a
  | .seq ts => return .group (← ts.mapM norm)

/-- Applies a rule to a term, both in the scope `s`; answers `none` if the rule does not apply. -/
def Rule.apply (π : Policy) (norm : Normalizer m) (s : Scope) (t : Term) : Rule → m (Option Term)
  | .empty => return none
  | .declaration =>
      match t.directive? with
      | none => return none
      | some d => do
          match ← Pattern.create d.pattern with
          | none =>
              note (.directiveInPattern d.pattern)
              return none
          | some p =>
              note (.declared p d.replacement)
              return some (← norm (s.extend π (.function p d.replacement s)) d.subject)
  | .subst a u => return if t = .atom a then some u else none
  | .function p body closure =>
      match p.match? t with
      | none => return none
      | some b => do
          note (.matched p b)
          return some (← norm closure (← norm (.ofBindings π b) body))

def applyFirst (π : Policy) (norm : Normalizer m) (s : Scope) (t : Term) :
    List Rule → m (Option Term)
  | [] => return none
  | r :: rs => do
      match ← r.apply π norm s t with
      | some u => return some u
      | none => applyFirst π norm s t rs

/-- Brings the elements to normal form, then applies the first rule that applies, if any. -/
def reduceOnce (π : Policy) (norm : Normalizer m) (s : Scope) (t : Term) : m Term := do
  let t ← normalizeElements (norm s) t
  return (← applyFirst π norm s t s.rules).getD t

/-- Takes up to `n` steps, until one does not change the term. -/
def settle (step : Term → m Term) : Nat → Term → m Term
  | 0, _ => exhausted
  | n + 1, t => do
      note (.rewriting t)
      let next ← step t
      if next = t then return t else settle step n next

/-- Brings a term to normal form in a scope, nesting at most `fuel` deep. -/
def normalize (π : Policy) : (fuel : Nat) → Normalizer m
  | 0, _, _ => exhausted
  | n + 1, s, t => do
      match ← request (.recall s t) with
      | some normal =>
          note (.known t)
          return normal
      | none =>
          let normal ← settle (reduceOnce π (normalize π n) s) n t
          request (.memorize s t normal)
          return normal

/-- An allowance of steps that no run of a program gets near to. -/
def ample : Nat := 1000000000000000000

def evaluate (π : Policy) (fuel : Nat) (t : Term) : m Term :=
  normalize π fuel (.base π) t

/-- Reads a text and brings the term that it says to normal form in the base scope. -/
def evaluateText (π : Policy) (fuel : Nat) (text : String) : m (Except ReadError Term) :=
  match Form.parse text with
  | .error e => return .error e
  | .ok f => do
      let t ← f.share
      return .ok (← evaluate π fuel t)

end

end ScopedRewriting
