import ScopedRewriting.Engine.Correspondence
import ScopedRewriting.Engine.Meaning

/-!
# Larger allowances of steps

A job that is not exhausted does the same with a larger allowance of steps: it makes the same
requests and has the same result (`Job.approximation`).
-/

namespace ScopedRewriting

namespace Job

variable {α β : Type}

/-- The second job does what the first one does, and may go on where the first one is exhausted. -/
inductive Approximates : Job α → Job α → Prop
  | exhausted (j : Job α) : Approximates .exhausted j
  | done (a : α) : Approximates (.done a) (.done a)
  | ask {q : Request} {next next' : q.Reply → Job α} :
      (∀ reply, Approximates (next reply) (next' reply)) →
      Approximates (.ask q next) (.ask q next')

theorem Approximates.refl (j : Job α) : j.Approximates j := by
  induction j with
  | done a => exact .done a
  | exhausted => exact .exhausted _
  | ask q next ih => exact .ask ih

theorem Approximates.bind {j k : Job α} {f g : α → Job β} (h : j.Approximates k)
    (hf : ∀ a, (f a).Approximates (g a)) : (j >>= f).Approximates (k >>= g) := by
  induction h with
  | exhausted k => exact .exhausted _
  | done a => exact hf a
  | ask _ ih => exact .ask ih

/-- As far as the smaller allowance of steps goes, the larger one makes no difference. -/
def approximation : Correspondence Job Job where
  Rel := Approximates
  Allows := (· ≤ ·)
  pure := .done
  bind := .bind
  request _ := .refl _
  zero _ _ := .exhausted _
  succ h := ⟨_, (Nat.succ_pred_eq_of_pos (Nat.zero_lt_of_lt h)).symm, Nat.le_pred_of_lt h⟩

/-- The requests that a job makes of an engine that remembers nothing. -/
def demands : Job α → List Request
  | .done _ | .exhausted => []
  | .ask q next => q :: (next q.forgetfulReply).demands

variable {j k : Job α} {a : α}

theorem Approximates.run_eq (h : j.Approximates k) {engine : Engine}
    (ha : (j.run engine).1 = some a) : k.run engine = j.run engine := by
  induction h generalizing engine with
  | exhausted k => cases ha
  | done b => rfl
  | ask _ ih => exact ih _ ha

theorem Approximates.forgetful_eq (h : j.Approximates k) (ha : j.forgetful = some a) :
    k.forgetful = some a := by
  induction h with
  | exhausted k => cases ha
  | done b => exact ha
  | ask _ ih => exact ih _ ha

theorem Approximates.demands_eq (h : j.Approximates k) (ha : j.forgetful = some a) :
    k.demands = j.demands := by
  induction h with
  | exhausted k => cases ha
  | done b => rfl
  | ask _ ih => exact congrArg (List.cons _) (ih _ ha)

theorem demands_bind (j : Job α) (f : α → Job β) :
    (j >>= f).demands = j.demands ++ (j.forgetful.map fun a => (f a).demands).getD [] := by
  induction j with
  | done a => rfl
  | exhausted => rfl
  | ask q next ih => exact congrArg (q :: ·) (ih _)

end Job

theorem Call.approximates {π : Policy} {n k : Nat} (hn : n ≤ k) (c : Call) :
    (c.job π n).Approximates (c.job π k) := by
  have h (s : Scope) (t : Term) := Job.approximation.normalize (π := π) hn s t
  cases c with
  | normalize s t => exact h s t
  | normalizeElements s t => exact Job.approximation.normalizeElements (h s) t
  | reduceOnce s t => exact Job.approximation.reduceOnce h s t
  | evaluate t => exact Job.approximation.evaluate hn t
  | evaluateText text => exact Job.approximation.evaluateText hn text
  | apply r s t => exact Job.approximation.apply h s t r

theorem Call.Result.unique {π : Policy} {c : Call} {a b : c.Answer} (ha : c.Result π a)
    (hb : c.Result π b) : a = b := by
  obtain ⟨n, ha⟩ := ha
  obtain ⟨k, hb⟩ := hb
  rcases Nat.le_total n k with h | h
  · exact Option.some.inj (((c.approximates h).forgetful_eq ha).symm.trans hb)
  · exact Option.some.inj (ha.symm.trans ((c.approximates h).forgetful_eq hb))

end ScopedRewriting
