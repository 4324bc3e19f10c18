import ScopedRewriting.Engine.Normalize
import ScopedRewriting.Source.Reader

/-!
# Terms and rules that are still to be built

Building a term interns its atoms from left to right. A source text that cannot be read interns
nothing; what was built before it stays interned.
-/

namespace ScopedRewriting

inductive BuildError where
  | read (e : ReadError)
  | directiveInPattern
deriving DecidableEq

def BuildError.message : BuildError → String
  | .read e => "parse error: " ++ e.message
  | .directiveInPattern => "pattern error: rewrite directive in pattern"

/-- A computation that may fail to build its result. -/
abbrev Build (m : Type → Type) := ExceptT BuildError m

inductive Sketch where
  | source (text : String)
  /-- The atom of a name, whatever characters the name consists of. -/
  | named (name : String)
  | group (parts : List Sketch)
deriving Inhabited

section

variable {m : Type → Type} [Monad m] [MonadRequest m]

mutual
def Sketch.build : Sketch → Build m Term
  | .source text =>
      match Form.parse text with
      | .error e => throw (.read e)
      | .ok f => ExceptT.lift f.share
  | .named name => do
      ExceptT.lift (intern ⟨name⟩)
      return .atom ⟨name⟩
  | .group parts => return .group (← Sketch.buildAll parts)

def Sketch.buildAll : List Sketch → Build m (List Term)
  | [] => return []
  | s :: ss => return (← s.build) :: (← Sketch.buildAll ss)
end

def Pattern.build (t : Term) : Build m Pattern := do
  match ← ExceptT.lift (Pattern.create t) with
  | some p => return p
  | none => throw .directiveInPattern

end

end ScopedRewriting
