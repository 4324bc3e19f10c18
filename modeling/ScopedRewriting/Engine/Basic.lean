import ScopedRewriting.Engine.Cache
import ScopedRewriting.Engine.Job
import ScopedRewriting.Names

/-!
# Engines

An engine holds what jobs share: the names in use, the known normal forms and, if wanted, a log of
the events.
-/

namespace ScopedRewriting

structure Engine where
  names : Names := .empty
  cache : Cache := .empty
  logging : Bool := false
  log : Array Event := #[]
deriving Inhabited

namespace Engine

def note (engine : Engine) (e : Event) : Engine :=
  if engine.logging then { engine with log := engine.log.push e } else engine

/-- The reply to a request, and the engine that is left. -/
def serve (engine : Engine) : (q : Request) → q.Reply × Engine
  | .recall s t => (engine.cache.get? s t, engine)
  | .memorize s t n => ((), { engine with cache := engine.cache.insert s t n })
  | .intern a => ((), { engine with names := engine.names.insert a })
  | .cacheSize => (engine.cache.size, engine)
  | .note e => ((), engine.note e)

end Engine

/-- Runs a job on its own; answers `none` if the job was exhausted. -/
def Job.run {α : Type} : Job α → Engine → Option α × Engine
  | .done a, engine => (some a, engine)
  | .exhausted, engine => (none, engine)
  | .ask q next, engine =>
      let (reply, engine) := engine.serve q
      (next reply).run engine

theorem Job.run_bind {α β : Type} (j : Job α) (f : α → Job β) (engine : Engine) :
    (j >>= f).run engine =
      match j.run engine with
      | (some a, engine) => (f a).run engine
      | (none, engine) => (none, engine) := by
  induction j generalizing engine with
  | done a => rfl
  | exhausted => rfl
  | ask q next ih => exact ih _ _

end ScopedRewriting
