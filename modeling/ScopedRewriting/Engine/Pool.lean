import ScopedRewriting.Engine.Basic

/-!
# Running jobs side by side

A pool of jobs shares one engine, which serves one request at a time. Whose request is served next
is up to a schedule. A request brings its job nearer to its end, so every pool comes to its end
under every schedule.
-/

namespace ScopedRewriting

namespace Job

variable {α : Type}

/-- The jobs that a job may become when its request is served. -/
inductive Next : Job α → Job α → Prop
  | reply (q : Request) (next : q.Reply → Job α) (reply : q.Reply) : Next (next reply) (.ask q next)

theorem wellFounded_next : WellFounded (@Next α) := by
  refine ⟨fun j => ?_⟩
  induction j with
  | done a => exact ⟨_, fun _ h => nomatch h⟩
  | exhausted => exact ⟨_, fun _ h => nomatch h⟩
  | ask q next ih =>
      refine ⟨_, fun _ h => ?_⟩
      cases h
      exact ih _

/-- The result of a job that does not make requests anymore. -/
def result? : Job α → Option α
  | .done a => some a
  | .exhausted | .ask .. => none

def isWaiting : Job α → Bool
  | .ask .. => true
  | .done _ | .exhausted => false

end Job

abbrev Pool (α : Type) := List (Job α)

namespace Pool

variable {α : Type}

/-- The pools that a pool may become when a request of one of its jobs is served. -/
inductive Next : Pool α → Pool α → Prop
  | here {j j' : Job α} (jobs : Pool α) : Job.Next j' j → Next (j' :: jobs) (j :: jobs)
  | there {jobs jobs' : Pool α} (j : Job α) : Next jobs' jobs → Next (j :: jobs') (j :: jobs)

theorem acc_cons {j : Job α} {jobs : Pool α} (hj : Acc Job.Next j) (hjobs : Acc Next jobs) :
    Acc Next (j :: jobs) := by
  induction hj generalizing jobs with
  | intro j _ ihj =>
      induction hjobs with
      | intro jobs hjobs ihjobs =>
          refine ⟨_, fun _ h => ?_⟩
          cases h with
          | here _ h => exact ihj _ h ⟨_, hjobs⟩
          | there _ h => exact ihjobs _ h

theorem wellFounded_next : WellFounded (@Next α) := by
  refine ⟨fun jobs => ?_⟩
  induction jobs with
  | nil => exact ⟨_, fun _ h => nomatch h⟩
  | cons j jobs ih => exact acc_cons (Job.wellFounded_next.apply j) ih

instance : WellFoundedRelation (Pool α) := ⟨Next, wellFounded_next⟩

def waiting (jobs : Pool α) : Nat := jobs.countP Job.isWaiting

/-- Serves the request of the waiting job number `i`, if there are so many. -/
def advance (engine : Engine) : Nat → Pool α → Pool α × Engine
  | _, [] => ([], engine)
  | 0, .ask q next :: jobs =>
      let (reply, engine) := engine.serve q
      (next reply :: jobs, engine)
  | i, j :: jobs =>
      let (jobs, engine) := advance engine (if j.isWaiting then i - 1 else i) jobs
      (j :: jobs, engine)

theorem next_advance (engine : Engine) {i : Nat} {jobs : Pool α} (h : i < jobs.waiting) :
    Next (advance engine i jobs).1 jobs := by
  induction jobs generalizing i with
  | nil => exact absurd h (Nat.not_lt_zero i)
  | cons j jobs ih =>
      cases j with
      | done a => exact .there _ (ih (by simpa [waiting, Job.isWaiting] using h))
      | exhausted => exact .there _ (ih (by simpa [waiting, Job.isWaiting] using h))
      | ask q next =>
          cases i with
          | zero => exact .here _ (.reply q next _)
          | succ i =>
              rw [waiting, List.countP_cons_of_pos rfl] at h
              exact .there _ (ih (Nat.lt_of_succ_lt_succ h))

/-- Runs all jobs to their ends. At time `n` the schedule picks one of the waiting jobs, counted
round and round. -/
def run (schedule : Nat → Nat) (n : Nat) (jobs : Pool α) (engine : Engine) :
    List (Option α) × Engine :=
  if h : jobs.waiting = 0 then
    (jobs.map Job.result?, engine)
  else
    let i := schedule n % jobs.waiting
    run schedule (n + 1) (advance engine i jobs).1 (advance engine i jobs).2
termination_by jobs
decreasing_by exact next_advance engine (Nat.mod_lt _ (Nat.pos_of_ne_zero h))

end Pool

end ScopedRewriting
