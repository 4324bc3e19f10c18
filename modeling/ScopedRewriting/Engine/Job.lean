import ScopedRewriting.Engine.Event

/-!
# Jobs

A job is a computation that shares an engine with other jobs. It does not touch the engine itself
but makes one request after the other and goes on with the replies. So the requests of several jobs
may be served in any order. A job whose allowance of steps is used up ends without a result.

What makes requests is written for any monad in which requests can be made, of which jobs are one.
-/

namespace ScopedRewriting

inductive Request where
  /-- Is a normal form of the term known? -/
  | recall (scope : Scope) (term : Term)
  | memorize (scope : Scope) (term normal : Term)
  | intern (atom : Atom)
  | cacheSize
  | note (event : Event)

def Request.Reply : Request → Type
  | .recall .. => Option Term
  | .cacheSize => Nat
  | .memorize .. | .intern _ | .note _ => Unit

/-- A monad in which requests can be made, and in which the allowance of steps may be used up. -/
class MonadRequest (m : Type → Type) where
  request (q : Request) : m q.Reply
  exhausted {α : Type} : m α

export MonadRequest (request exhausted)

section

variable {m : Type → Type} [Monad m] [MonadRequest m]

def note (e : Event) : m Unit := request (.note e)

def intern (a : Atom) : m Unit := request (.intern a)

def internAll : List Atom → m Unit
  | [] => return ()
  | a :: as => do
      intern a
      internAll as

/-- The term that a form says, with its atoms interned. -/
def Form.share (f : Form) : m Term := do
  internAll (Term.ofForm f).atoms
  return .ofForm f

end

inductive Job (α : Type) where
  | done (result : α)
  | exhausted
  | ask (request : Request) (next : request.Reply → Job α)

namespace Job

variable {α β γ : Type}

def bind : Job α → (α → Job β) → Job β
  | .done a, f => f a
  | .exhausted, _ => .exhausted
  | .ask q next, f => .ask q fun reply => (next reply).bind f

instance : Monad Job where
  pure := .done
  bind := bind

instance : MonadRequest Job where
  request q := .ask q .done
  exhausted := .exhausted

@[simp]
theorem pure_eq (a : α) : (pure a : Job α) = .done a := rfl

@[simp]
theorem done_bind (a : α) (f : α → Job β) : (Job.done a >>= f) = f a := rfl

@[simp]
theorem exhausted_bind (f : α → Job β) : (Job.exhausted >>= f) = .exhausted := rfl

@[simp]
theorem ask_bind (q : Request) (next : q.Reply → Job α) (f : α → Job β) :
    (Job.ask q next >>= f) = .ask q fun reply => next reply >>= f := rfl

theorem bind_done (j : Job α) : j >>= Job.done = j := by
  induction j with
  | done a => rfl
  | exhausted => rfl
  | ask q next ih => exact congrArg (Job.ask q) (funext ih)

theorem bind_assoc (j : Job α) (f : α → Job β) (g : β → Job γ) :
    j >>= f >>= g = j >>= fun a => f a >>= g := by
  induction j with
  | done a => rfl
  | exhausted => rfl
  | ask q next ih => exact congrArg (Job.ask q) (funext ih)

instance : LawfulMonad Job :=
  LawfulMonad.mk' Job bind_done (fun _ _ => rfl) bind_assoc

end Job

end ScopedRewriting
