import ScopedRewriting.Program.Process
import ScopedRewriting.Engine.Part

/-!
# Processing as a part and as a job

As a part of a job, processing a source does what it does as a job.
-/

namespace ScopedRewriting

namespace Correspondence

variable {m m' : Type → Type} [Monad m] [MonadRequest m] [Monad m'] [MonadRequest m']
variable [LawfulMonad m] [LawfulMonad m'] (L : Correspondence m m')
variable {π : Policy} {n k : Nat} {o : Options}

theorem process (hn : L.Allows n k) (path : String) (source : ByteArray) :
    L.Rel (process π n o path source) (process π k o path source) := by
  unfold ScopedRewriting.process
  cases String.fromUTF8? source with
  | none => exact L.pure _
  | some text =>
      refine L.bind (L.note _) fun _ => ?_
      cases Form.parse text with
      | error e => exact L.pure _
      | ok form =>
          dsimp only
          split
          · exact L.pure _
          · refine L.bind (L.share form) fun t => ?_
            split
            · exact L.pure _
            · exact L.bind (L.note _) fun _ => L.bind (L.evaluate hn t) fun normal =>
                L.bind (L.request .cacheSize) fun size => L.bind (L.note _) fun _ => L.pure _

theorem processFile (hn : L.Allows n k) (path : String) (contents : Contents) :
    L.Rel (processFile π n o path contents) (processFile π k o path contents) := by
  cases contents with
  | error e => exact L.pure _
  | ok source => exact L.process hn path source

end Correspondence

theorem whole_processFile (π : Policy) (fuel : Nat) (o : Options) (path : String)
    (contents : Contents) :
    (processFile π fuel o path contents : Part _ _).whole = processFile π fuel o path contents :=
  Part.Performs.whole_eq ((Part.performance _).processFile rfl path contents)

end ScopedRewriting
