import ScopedRewriting.Scope.Basic

/-!
# What an engine reports while it works
-/

namespace ScopedRewriting

inductive Event where
  /-- A term is about to be rewritten once more. -/
  | rewriting (t : Term)
  /-- The normal form of a term was known already. -/
  | known (t : Term)
  | matched (p : Pattern) (b : Bindings)
  | declared (p : Pattern) (replacement : Term)
  /-- A directive does not declare anything, because its pattern holds a directive. -/
  | directiveInPattern (pattern : Term)
  | parsing (path : String)
  | evaluating (path : String)
  | cacheSize (n : Nat)
deriving DecidableEq

inductive Event.Level where
  | trace
  | debug
  | info
  | warn
deriving DecidableEq

def Event.Level.text : Event.Level → String
  | .trace => "TRACE"
  | .debug => "DEBUG"
  | .info => "INFO"
  | .warn => "WARN"

namespace Event

def level : Event → Level
  | .rewriting _ | .known _ | .matched .. => .trace
  | .declared .. | .cacheSize _ => .debug
  | .parsing _ | .evaluating _ => .info
  | .directiveInPattern _ => .warn

def message : Event → String
  | .rewriting t => "rewrite: " ++ t.text
  | .known t => "cache hit: " ++ t.text
  | .matched p b => p.text ++ " matched with " ++ b.text
  | .declared p r => "declare " ++ p.text ++ " -> " ++ r.text
  | .directiveInPattern t => "directive in pattern position: " ++ t.text
  | .parsing path => "Parse " ++ path
  | .evaluating path => "Evaluate " ++ path
  | .cacheSize n => "Cache holds " ++ toString n ++ " normal forms"

def text (e : Event) : String := e.level.text ++ " " ++ e.message

end Event

end ScopedRewriting
