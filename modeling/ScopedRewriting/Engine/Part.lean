import ScopedRewriting.Engine.Correspondence

/-!
# Parts of jobs

A part of a job says what the job does, up to its end, once it is known how the job goes on with
the result of the part. A job that is put together from jobs passes each request through all that
it is nested in; parts make it at once. Apart from that, it is the same whether a part or a job is
put in front of what follows (`Part.Performs`).
-/

namespace ScopedRewriting

/-- A part, with a result in `α`, of a job with a result in `ω`. -/
def Part (ω α : Type) : Type := (α → Job ω) → Job ω

namespace Part

variable {ω α : Type}

instance : Monad (Part ω) where
  pure a next := next a
  bind p f next := p fun a => f a next

instance : LawfulMonad (Part ω) :=
  LawfulMonad.mk' (Part ω) (fun _ => rfl) (fun _ _ => rfl) fun _ _ _ => rfl

instance : MonadRequest (Part ω) where
  request := .ask
  exhausted _ := .exhausted

/-- The job that has no other part. -/
def whole (p : Part α α) : Job α := p .done

/-- The part does what the job does. -/
def Performs (p : Part ω α) (j : Job α) : Prop :=
  ∀ next : α → Job ω, p next = j >>= next

theorem Performs.whole_eq {p : Part α α} {j : Job α} (h : p.Performs j) : p.whole = j :=
  (h .done).trans (Job.bind_done j)

/-- As a part of a job, each step of rewriting does what it does as a job. -/
def performance (ω : Type) : Correspondence (Part ω) Job where
  Rel := Performs
  Allows := (· = ·)
  pure _ _ := rfl
  bind {_ _ p j f g} hp hf next := by
    rw [Job.bind_assoc, ← funext fun a => hf a next]
    exact hp _
  request _ _ := rfl
  zero hk hy := by
    subst hk
    rw [hy]
    exact fun _ => rfl
  succ hk := ⟨_, hk.symm, rfl⟩

end Part

end ScopedRewriting
