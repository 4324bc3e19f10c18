import ScopedRewriting.Engine.Basic
import ScopedRewriting.Engine.Part
import ScopedRewriting.Session.Sketch

/-!
# Single questions to a fresh engine
-/

namespace ScopedRewriting

inductive QueryError where
  | build (e : BuildError)
  | unknownScope (name : String)
  | exhausted
deriving DecidableEq

def QueryError.message : QueryError → String
  | .build e => e.message
  | .unknownScope name => "unknown scope: " ++ name
  | .exhausted => "out of steps"

/-- A computation that owns an engine. -/
abbrev Query := ExceptT QueryError (StateM Engine)

namespace Query

variable {α : Type}

/-- Runs the job that has the given part only. -/
def job (p : Part α α) : Query α :=
  fun engine =>
    match p.whole.run engine with
    | (some a, engine) => (.ok a, engine)
    | (none, engine) => (.error .exhausted, engine)

def build (b : Build (Part (Except BuildError α)) α) : Query α := do
  match ← job b.run with
  | .ok a => return a
  | .error e => throw (.build e)

/-- Runs a job with logging; answers the events, too. -/
def logged (p : Part α α) : Query (α × List Event) := do
  modify fun engine => { engine with logging := true, log := #[] }
  let a ← job p
  let events := (← get).log.toList
  modify fun engine => { engine with logging := false, log := #[] }
  return (a, events)

end Query

structure Evaluation where
  term : Term
  normal : Term
  names : Nat
  cached : Nat
  /-- Whether evaluating the normal form once more yields it again. -/
  stable : Bool
  events : List Event

def Evaluation.query (π : Policy) (fuel : Nat) (s : Sketch) : Query Evaluation := do
  let term ← Query.build s.build
  let (normal, events) ← Query.logged (evaluate π fuel term)
  let engine ← get
  let names := engine.names.size
  let cached := engine.cache.size
  let again ← Query.job (evaluate π fuel normal)
  return { term, normal, names, cached, stable := again == normal, events }

def matchQuery (pattern : Sketch) (terms : List Sketch) :
    Query (Pattern × List (Option Bindings)) := do
  let p ← Query.build do Pattern.build (← pattern.build)
  let results ← terms.mapM fun s => do return p.match? (← Query.build s.build)
  return (p, results)

def buildBindings {m : Type → Type} [Monad m] [MonadRequest m] (acc : Option Bindings) :
    List (String × Sketch) → Build m (Option Bindings)
  | [] => return acc
  | (name, s) :: rest => do
      ExceptT.lift (intern ⟨name⟩)
      let t ← s.build
      buildBindings (acc.bind fun b => b.merge (.single ⟨name⟩ t)) rest

/-- Merges groups of bindings from left to right; answers what there is after each group. -/
def mergeQuery (acc : Option Bindings) :
    List (List (String × Sketch)) → Query (List (Option Bindings))
  | [] => return []
  | group :: groups => do
      let b ← Query.build (buildBindings (some .empty) group)
      let acc := acc.bind fun a => b.bind fun b => a.merge b
      return acc :: (← mergeQuery acc groups)

/-- The term with its atoms replaced as the bindings say, brought to normal form in their scope. -/
def substituteQuery (π : Policy) (fuel : Nat) (b : Bindings) (body : Sketch) : Query Term := do
  let t ← Query.build body.build
  Query.job (normalize π fuel (.ofBindings π b) t)

end ScopedRewriting
