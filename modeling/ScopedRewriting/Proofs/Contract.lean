import ScopedRewriting.Engine.Meaning

/-!
# Jobs that keep to a contract

A contract says which replies a job may rely on and which requests it may make in return. Whoever
serves the requests has to show only that each of them is served as the contract says; it does not
matter whether other jobs are served in between.
-/

namespace ScopedRewriting

structure Contract where
  permits : Request → Prop
  expects (q : Request) : q.Reply → Prop
  /-- Whether the allowance of steps may be used up. -/
  tires : Prop

/-- As long as the replies are as expected, the requests are permitted, and `P` holds of the
result. -/
inductive Job.Obeys (c : Contract) {α : Type} (P : α → Prop) : Job α → Prop
  | done {a : α} : P a → Obeys c P (.done a)
  | exhausted : c.tires → Obeys c P .exhausted
  | ask {q : Request} {next : q.Reply → Job α} : c.permits q →
      (∀ reply, c.expects q reply → Obeys c P (next reply)) → Obeys c P (.ask q next)

/-- What may be asked at any time: to intern an atom, and to note an event that is no warning. -/
structure Contract.Lenient (c : Contract) : Prop where
  intern (a : Atom) : c.permits (.intern a)
  note (e : Event) : e.level ≠ .warn → c.permits (.note e)

variable {c : Contract} {α β : Type} {P : α → Prop} {Q : β → Prop}

namespace Job

theorem Obeys.bind {j : Job α} {f : α → Job β} (hj : j.Obeys c P)
    (hf : ∀ a, P a → (f a).Obeys c Q) : (j >>= f).Obeys c Q := by
  induction hj with
  | done ha => exact hf _ ha
  | exhausted ht => exact .exhausted ht
  | ask hq _ ih => exact .ask hq ih

/-! ## Serving requests -/

/-- `I` is kept when a permitted request is served, and the reply is as expected. -/
def Upholds (c : Contract) (I : Engine → Prop) : Prop :=
  ∀ engine q, I engine → c.permits q → c.expects q (engine.serve q).1 ∧ I (engine.serve q).2

variable {I : Engine → Prop} {j : Job α} {engine : Engine}

theorem Obeys.run_keeps (hj : j.Obeys c P) (hI : Upholds c I) (h : I engine) :
    I (j.run engine).2 := by
  induction hj generalizing engine with
  | done _ => exact h
  | exhausted _ => exact h
  | ask hq _ ih =>
      obtain ⟨hr, hs⟩ := hI engine _ h hq
      exact ih _ hr hs

theorem Obeys.run_result (hj : j.Obeys c P) (hI : Upholds c I) (h : I engine) {a : α}
    (ha : (j.run engine).1 = some a) : P a := by
  induction hj generalizing engine with
  | done hp =>
      cases ha
      exact hp
  | exhausted _ => cases ha
  | ask hq _ ih =>
      obtain ⟨hr, hs⟩ := hI engine _ h hq
      exact ih _ hr hs ha

theorem Obeys.run_isSome (hj : j.Obeys c P) (ht : ¬ c.tires) (hI : Upholds c I) (h : I engine) :
    ∃ a, P a ∧ (j.run engine).1 = some a := by
  induction hj generalizing engine with
  | done hp => exact ⟨_, hp, rfl⟩
  | exhausted ht' => exact absurd ht' ht
  | ask hq _ ih =>
      obtain ⟨hr, hs⟩ := hI engine _ h hq
      exact ih _ hr hs

theorem Obeys.permits_of_mem_requests (hj : j.Obeys c P) (hI : Upholds c I) (h : I engine)
    {q : Request} (hq : q ∈ j.requests engine) : c.permits q := by
  induction hj generalizing engine with
  | done _ => simp [requests] at hq
  | exhausted _ => simp [requests] at hq
  | ask hp _ ih =>
      obtain ⟨hr, hs⟩ := hI engine _ h hp
      rcases List.mem_cons.mp hq with rfl | hq
      · exact hp
      · exact ih _ hr hs hq

/-! ## Remembering nothing -/

@[simp]
theorem forgetful_done (a : α) : (Job.done a).forgetful = some a := rfl

theorem forgetful_bind_eq_some_iff {j : Job α} {f : α → Job β} {b : β} :
    (j >>= f).forgetful = some b ↔ ∃ a, j.forgetful = some a ∧ (f a).forgetful = some b := by
  rw [forgetful_bind, Option.bind_eq_some_iff]

@[simp]
theorem forgetful_map (f : α → β) (j : Job α) : (f <$> j).forgetful = j.forgetful.map f := by
  rw [← bind_pure_comp, forgetful_bind, Option.map_eq_bind]
  rfl

@[simp]
theorem forgetful_note (e : Event) : (note e : Job Unit).forgetful = some () := rfl

@[simp]
theorem forgetful_internAll (as : List Atom) : (internAll as : Job Unit).forgetful = some () := by
  induction as with
  | nil => rfl
  | cons a as ih => exact ih

end Job

/-! ## Judging jobs by their parts -/

/-- A way of saying that `P` holds of the results of a job, such that jobs may be judged part by
part. -/
structure Judgement where
  Holds {α : Type} (P : α → Prop) (j : Job α) : Prop
  pure {α : Type} {P : α → Prop} {a : α} : P a → Holds P (pure a)
  bind {α β : Type} {P : α → Prop} {Q : β → Prop} {j : Job α} {f : α → Job β} : Holds P j →
    (∀ a, P a → Holds Q (f a)) → Holds Q (j >>= f)
  exhausted {α : Type} {P : α → Prop} : Holds P exhausted
  intern (a : Atom) : Holds (fun _ => True) (intern a)
  note (e : Event) : e.level ≠ .warn → Holds (fun _ => True) (note e)

/-- The job keeps to a contract. -/
def Contract.judgement (c : Contract) (hc : c.Lenient) (ht : c.tires) : Judgement where
  Holds := Job.Obeys c
  pure h := .done h
  bind := .bind
  exhausted := .exhausted ht
  intern a := .ask (hc.intern a) fun _ _ => .done trivial
  note e he := .ask (hc.note e he) fun _ _ => .done trivial

/-- What the job results in for an engine that remembers nothing, it results in whatever the replies
are, as long as they are as expected. -/
def Contract.steady (c : Contract) (hc : c.Lenient) : Judgement where
  Holds P j := ∀ a, j.forgetful = some a → P a ∧ j.Obeys c (· = a)
  pure h a ha := by
    cases ha
    exact ⟨h, .done rfl⟩
  bind hj hf b hb := by
    obtain ⟨a, ha, hb⟩ := Job.forgetful_bind_eq_some_iff.mp hb
    obtain ⟨hp, hja⟩ := hj a ha
    obtain ⟨hq, hfb⟩ := hf a hp b hb
    refine ⟨hq, hja.bind ?_⟩
    rintro _ rfl
    exact hfb
  exhausted _ ha := by cases ha
  intern a _ _ := ⟨trivial, .ask (hc.intern a) fun _ _ => .done rfl⟩
  note e he _ _ := ⟨trivial, .ask (hc.note e he) fun _ _ => .done rfl⟩

namespace Judgement

variable (J : Judgement)

theorem imp {P Q : α → Prop} {j : Job α} (hj : J.Holds P j) (h : ∀ a, P a → Q a) : J.Holds Q j := by
  rw [← bind_pure j]
  exact J.bind hj fun a ha => J.pure (h a ha)

theorem map {j : Job α} {f : α → β} (hj : J.Holds P j) (h : ∀ a, P a → Q (f a)) :
    J.Holds Q (f <$> j) := by
  rw [← bind_pure_comp]
  exact J.bind hj fun a ha => J.pure (h a ha)

theorem internAll (as : List Atom) : J.Holds (fun _ => True) (internAll as) := by
  induction as with
  | nil => exact J.pure trivial
  | cons a as ih => exact J.bind (J.intern a) fun _ _ => ih

end Judgement

end ScopedRewriting
