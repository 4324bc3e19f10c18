import ScopedRewriting.Proofs.Memory

/-!
# What a run asks for

On the way to a normal form, other normal forms are asked for. If something holds of all that the
steps need, it holds of what is asked for, whatever is remembered (`asking_normalize`). A run that
is part of another one finds more remembered than it would by itself, but only normal forms.
-/

namespace ScopedRewriting

variable {π : Policy} {α β : Type} {Q : Scope → Term → Prop} {s : Scope} {t u : Term}

/-- An engine that remembers normal forms only is asked for the normal form of `t` in `s` on the way
to the answer. -/
def Call.Asks (π : Policy) (c : Call) (s : Scope) (t : Term) : Prop :=
  ∃ (fuel : Nat) (engine : Engine), engine.cache.Sound π ∧
    .recall s t ∈ (c.job π fuel).requests engine

theorem Job.mem_requests_bind_iff {j : Job α} {f : α → Job β} {engine : Engine} {q : Request} :
    q ∈ (j >>= f).requests engine ↔ q ∈ j.requests engine ∨
      ∃ a, (j.run engine).1 = some a ∧ q ∈ (f a).requests (j.run engine).2 := by
  induction j generalizing engine with
  | done a => simp [requests, run]
  | exhausted => simp [requests, run]
  | ask q' next ih =>
      change q ∈ q' :: _ ↔ q ∈ q' :: _ ∨ _
      rw [List.mem_cons, List.mem_cons, or_assoc]
      exact or_congr_right (ih _)

/-- Besides keeping to what is true, the job asks for normal forms only if `Q` holds of them. -/
def asking (π : Policy) (Q : Scope → Term → Prop) : Judgement where
  Holds P j := j.Obeys (.truthful π (fun _ => True) True) P ∧
    ∀ engine : Engine, engine.cache.Sound π → ∀ s t, .recall s t ∈ j.requests engine → Q s t
  pure h := ⟨.done h, fun _ _ _ _ hq => absurd hq List.not_mem_nil⟩
  bind hj hf := by
    refine ⟨hj.1.bind fun a ha => (hf a ha).1, fun engine he s t hq => ?_⟩
    have hupholds := upholds_truthful π (fun _ => True) True engine.cache
    rcases Job.mem_requests_bind_iff.mp hq with hq | ⟨a, ha, hq⟩
    · exact hj.2 engine he s t hq
    · have hresult := hj.1.run_result hupholds ⟨he, .refl _⟩ ha
      have hsound := (hj.1.run_keeps hupholds ⟨he, .refl _⟩).1
      exact (hf a hresult).2 _ hsound s t hq
  exhausted := ⟨.exhausted trivial, fun _ _ _ _ hq => absurd hq List.not_mem_nil⟩
  intern a := by
    refine ⟨.ask trivial fun _ _ => .done trivial, fun _ _ _ _ hq => ?_⟩
    cases List.mem_singleton.mp hq
  note e _ := by
    refine ⟨.ask trivial fun _ _ => .done trivial, fun _ _ _ _ hq => ?_⟩
    cases List.mem_singleton.mp hq

theorem asking_warns (t : Term) : (asking π Q).Warns t := by
  refine fun d _ _ => ⟨.ask trivial fun _ _ => .done trivial, fun _ _ _ _ hq => ?_⟩
  cases List.mem_singleton.mp hq

/-- A round of steps is left out if the normal form is remembered, and is run after it was asked for
otherwise. -/
theorem asking_normalize_succ {P : Term → Prop} {n : Nat} (ht : Q s t)
    (hsettle : (asking π Q).Holds P (settle (reduceOnce π (normalize π n) s) n t)) :
    (asking π Q).Holds (NormalForm π s t) (normalize π (n + 1) s t) := by
  refine ⟨obeys_call (n + 1) (.normalize s t), fun engine he s' u hq => ?_⟩
  rw [normalize_succ] at hq
  rcases List.mem_cons.mp hq with heq | hq
  · cases heq
    exact ht
  · dsimp only at hq
    cases hknown : engine.cache.get? s t with
    | some normal =>
        rw [hknown] at hq
        cases List.mem_singleton.mp hq
    | none =>
        rw [hknown] at hq
        rcases Job.mem_requests_bind_iff.mp hq with hq | ⟨normal, _, hq⟩
        · exact hsettle.2 engine he s' u hq
        · cases List.mem_singleton.mp hq

/-- The steps may lead to other terms, as long as what these need asks for nothing else. -/
theorem asking_of_needs {G : Term → Prop} (hG : ∀ u v, G u → Reduces π (NormalForm π) s u v → G v)
    (hneeds : ∀ u s' v, G u → Needs π (NormalForm π) s u s' v → ∀ n,
      (asking π Q).Holds (NormalForm π s' v) (normalize π n s' v))
    (hQ : Q s t) (ht : G t) (fuel : Nat) :
    (asking π Q).Holds (NormalForm π s t) (normalize π fuel s t) := by
  cases fuel with
  | zero => exact (asking π Q).exhausted
  | succ n =>
      have hstep : ∀ u, G u → (asking π Q).Holds (Reduces π (NormalForm π) s u)
          (reduceOnce π (normalize π n) s u) :=
        fun u hu => Judgement.reduceOnce (fun s' v hn => hneeds u s' v hu hn n) fun u' _ _ =>
          asking_warns u'
      exact asking_normalize_succ hQ (Judgement.settle hstep hG n ht)

theorem asking_normalize {G : Scope → Term → Prop} (hG : Invariant π (NormalForm π) G)
    (hQ : ∀ s t, G s t → Q s t) (fuel : Nat) (ht : G s t) :
    (asking π Q).Holds (NormalForm π s t) (normalize π fuel s t) :=
  Judgement.normalize_of_round hG (fun _ _ t' _ _ _ => asking_warns t')
    (fun _ s t ht hsettle => asking_normalize_succ (hQ s t ht) hsettle) fuel ht

theorem Invariant.of_asks {G : Scope → Term → Prop} (hG : Invariant π (NormalForm π) G) (ht : G s t)
    {s' : Scope} (h : (Call.normalize s t).Asks π s' u) : G s' u := by
  obtain ⟨fuel, engine, he, hq⟩ := h
  exact (asking_normalize hG (fun _ _ h => h) fuel ht).2 engine he s' u hq

/-- What holds of all that a call asks for holds of what is asked for where the call is a part. -/
theorem asking_of_asks (h : ∀ s' u, (Call.normalize s t).Asks π s' u → Q s' u) (fuel : Nat) :
    (asking π Q).Holds (NormalForm π s t) (normalize π fuel s t) :=
  ⟨obeys_call fuel (.normalize s t), fun engine he s' u hq => h s' u ⟨fuel, engine, he, hq⟩⟩

end ScopedRewriting
