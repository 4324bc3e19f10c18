import ScopedRewriting.Engine.Basic
import ScopedRewriting.Engine.Normalize

/-!
# What normal forms are

The normal form of a term is what an engine yields that remembers nothing. An engine with a memory
is to be measured by it.
-/

namespace ScopedRewriting

/-- How an engine that remembers nothing replies. -/
def Request.forgetfulReply : (q : Request) → q.Reply
  | .recall .. => (none : Option Term)
  | .cacheSize => (0 : Nat)
  | .memorize .. | .intern _ | .note _ => ()

/-- The result of a job for an engine that remembers nothing. -/
def Job.forgetful {α : Type} : Job α → Option α
  | .done a => some a
  | .exhausted => none
  | .ask q next => (next q.forgetfulReply).forgetful

theorem Job.forgetful_bind {α β : Type} (j : Job α) (f : α → Job β) :
    (j >>= f).forgetful = j.forgetful.bind fun a => (f a).forgetful := by
  induction j with
  | done a => rfl
  | exhausted => rfl
  | ask q next ih => exact ih _

/-- The requests that a job makes of an engine, one after the other. -/
def Job.requests {α : Type} : Job α → Engine → List Request
  | .done _, _ | .exhausted, _ => []
  | .ask q next, engine =>
      let (reply, engine) := engine.serve q
      q :: (next reply).requests engine

/-- In the scope `s`, the term `t` has the normal form `u`. -/
def NormalForm (π : Policy) (s : Scope) (t u : Term) : Prop :=
  ∃ fuel, Job.forgetful (normalize π fuel s t) = some u

def Normalizing (π : Policy) (s : Scope) (t : Term) : Prop :=
  ∃ u, NormalForm π s t u

inductive Call where
  | normalize (s : Scope) (t : Term)
  | normalizeElements (s : Scope) (t : Term)
  | reduceOnce (s : Scope) (t : Term)
  | evaluate (t : Term)
  | evaluateText (text : String)
  | apply (r : Rule) (s : Scope) (t : Term)

/-- What a call is answered with; there is no term for a rule that does not apply. -/
def Call.Answer : Call → Type
  | .normalize .. | .normalizeElements .. | .reduceOnce .. | .evaluate _ => Term
  | .evaluateText _ => Except ReadError Term
  | .apply .. => Option Term

def Call.job (π : Policy) (fuel : Nat) : (c : Call) → Job c.Answer
  | .normalize s t => ScopedRewriting.normalize π fuel s t
  | .normalizeElements s t =>
      ScopedRewriting.normalizeElements (ScopedRewriting.normalize π fuel s) t
  | .reduceOnce s t => ScopedRewriting.reduceOnce π (ScopedRewriting.normalize π fuel) s t
  | .evaluate t => ScopedRewriting.evaluate π fuel t
  | .evaluateText text => ScopedRewriting.evaluateText π fuel text
  | .apply r s t => r.apply π (ScopedRewriting.normalize π fuel) s t

/-- An engine that remembers nothing answers the call, as long as enough steps are allowed. -/
def Call.Result (π : Policy) (c : Call) (a : c.Answer) : Prop :=
  ∃ fuel, (c.job π fuel).forgetful = some a

/-- The engine answers the call, as long as enough steps are allowed. -/
def Engine.Answers (π : Policy) (engine : Engine) (c : Call) (a : c.Answer) : Prop :=
  ∃ fuel, ((c.job π fuel).run engine).1 = some a

/-- The engine has answered calls and shared forms only; its cache may have been emptied in
between. -/
inductive Engine.Filled (π : Policy) : Engine → Prop
  | fresh : Filled π {}
  | call {engine : Engine} (fuel : Nat) (c : Call) :
      Filled π engine → Filled π ((c.job π fuel).run engine).2
  | share {engine : Engine} (f : Form) :
      Filled π engine → Filled π ((f.share : Job Term).run engine).2
  | clear {engine : Engine} : Filled π engine → Filled π { engine with cache := .empty }

end ScopedRewriting
