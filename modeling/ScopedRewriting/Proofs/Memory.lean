import ScopedRewriting.Proofs.NormalForm

/-!
# The memory of an engine

Whatever an engine remembers is a normal form (`Engine.Filled.sound`). So it answers all calls as
an engine does that remembers nothing, and forgets nothing by it (`memory_transparent`).
-/

namespace ScopedRewriting

variable {π : Policy}

/-! ## The contract of jobs that share a memory -/

/-- Only normal forms are memorized, and events are noted only if `notes` holds of them. In return,
only normal forms are recalled. -/
def Contract.truthful (π : Policy) (notes : Event → Prop) (tires : Prop) : Contract where
  permits
    | .memorize s t n => NormalForm π s t n
    | .note e => notes e
    | _ => True
  expects
    | .recall s t, known? => ∀ n, known? = some n → NormalForm π s t n
    | _, _ => True
  tires := tires

theorem Contract.truthful_lenient {notes : Event → Prop} {tires : Prop}
    (h : ∀ e, e.level ≠ .warn → notes e) : (truthful π notes tires).Lenient where
  intern _ := trivial
  note := h

def Cache.Sound (π : Policy) (c : Cache) : Prop :=
  ∀ s t n, c.get? s t = some n → NormalForm π s t n

def Cache.Within (c d : Cache) : Prop :=
  ∀ s t n, c.get? s t = some n → d.get? s t = some n

theorem Cache.sound_empty : empty.Sound π := by
  intro s t n h
  simp at h

/-- As normal forms are unique, storing one more does not change any entry. -/
theorem Cache.Sound.get?_insert_iff {c : Cache} (hc : c.Sound π) {s s' : Scope} {t t' n n' : Term}
    (hn : NormalForm π s t n) : (c.insert s t n).get? s' t' = some n' ↔
      c.get? s' t' = some n' ∨ s' = s ∧ t' = t ∧ n' = n := by
  rw [get?_insert]
  split
  · next heq =>
      obtain ⟨rfl, rfl⟩ := heq
      have hsame (h : c.get? s t = some n') : n' = n := (hc _ _ _ h).unique hn
      grind
  · grind

theorem Cache.Sound.insert {c : Cache} (hc : c.Sound π) {s : Scope} {t n : Term}
    (hn : NormalForm π s t n) : (c.insert s t n).Sound π := by
  intro s' t' n' h
  rcases (hc.get?_insert_iff hn).mp h with h | ⟨rfl, rfl, rfl⟩
  · exact hc s' t' n' h
  · exact hn

theorem Cache.Within.refl (c : Cache) : c.Within c :=
  fun _ _ _ h => h

theorem Cache.within_empty (c : Cache) : empty.Within c := by
  intro s t n h
  simp at h

theorem Cache.Within.insert {c d : Cache} (hcd : c.Within d) (hd : d.Sound π) {s : Scope}
    {t n : Term} (hn : NormalForm π s t n) : c.Within (d.insert s t n) :=
  fun s' t' n' h => (hd.get?_insert_iff hn).mpr (.inl (hcd s' t' n' h))

@[simp]
theorem Engine.cache_note (engine : Engine) (e : Event) : (engine.note e).cache = engine.cache := by
  unfold note
  split <;> rfl

/-- An engine with a sound memory serves requests as the contract says, and keeps its entries. -/
theorem upholds_truthful (π : Policy) (notes : Event → Prop) (tires : Prop) (c : Cache) :
    Job.Upholds (.truthful π notes tires)
      fun engine => engine.cache.Sound π ∧ c.Within engine.cache := by
  rintro engine q ⟨hs, hc⟩ hq
  match q, hq with
  | .recall s t, _ => exact ⟨fun n hn => hs s t n hn, hs, hc⟩
  | .memorize s t n, hn => exact ⟨trivial, hs.insert hn, hc.insert hs hn⟩
  | .intern a, _ => exact ⟨trivial, hs, hc⟩
  | .cacheSize, _ => exact ⟨trivial, hs, hc⟩
  | .note e, _ =>
      refine ⟨trivial, ?_⟩
      simp only [Engine.serve, Engine.cache_note]
      exact ⟨hs, hc⟩

/-! ## Rewriting keeps to the contract -/

/-- What is memorized has to be permitted, and what is recalled has to be expected to be what the
steps would have settled at, as far as `G` holds. -/
theorem Contract.obeys_normalize {c : Contract} {N : Normalization} {G : Scope → Term → Prop}
    (hc : c.Lenient) (ht : c.tires) (hG : Invariant π N G)
    (hrecall : ∀ s t, G s t → c.permits (.recall s t))
    (hknown : ∀ s t n, G s t → c.expects (.recall s t) (some n) → N s t n)
    (hmem : ∀ s t n, G s t → Settles (Reduces π N s) t n → c.permits (.memorize s t n) ∧ N s t n)
    (hw : ∀ s t t', G s t → Elementwise N s t t' → Rule.declaration ∈ s.rules →
      ∀ d, t'.directive? = some d → Pattern.ofTerm? d.pattern = none →
        c.permits (.note (.directiveInPattern d.pattern)))
    (fuel : Nat) {s : Scope} {t : Term} (hs : G s t) :
    Job.Obeys c (N s t) (normalize π fuel s t) := by
  let J := c.judgement hc ht
  refine Judgement.normalize_of_round (J := J) hG (fun s t t' hs ht hm d hd hp => ?_)
    (fun n s t hs hsettle => ?_) fuel hs
  · exact .ask (hw s t t' hs ht hm d hd hp) fun _ _ => .done trivial
  · change Job.Obeys c (N s t) (normalize π (n + 1) s t)
    rw [normalize_succ]
    refine .ask (hrecall s t hs) fun known? hr => ?_
    cases known? with
    | some n =>
        exact .ask (hc.note _ (by simp [Event.level])) fun _ _ => .done (hknown s t n hs hr)
    | none =>
        refine Job.Obeys.bind (P := Settles (Reduces π N s) t) hsettle fun n hn => ?_
        obtain ⟨hp, hN⟩ := hmem s t n hs hn
        exact .ask hp fun _ _ => .done hN

/-- Where a directive stands in the place of a pattern, that may be noted, as far as `G` holds. -/
theorem obeys_normalize {notes : Event → Prop} {G : Scope → Term → Prop}
    (hn : ∀ e, e.level ≠ .warn → notes e) (hG : Invariant π (NormalForm π) G)
    (hw : ∀ s t t', G s t → Elementwise (NormalForm π) s t t' → Rule.declaration ∈ s.rules →
      ∀ d, t'.directive? = some d → Pattern.ofTerm? d.pattern = none →
        notes (.directiveInPattern d.pattern))
    (fuel : Nat) {s : Scope} {t : Term} (hs : G s t) :
    Job.Obeys (.truthful π notes True) (NormalForm π s t) (normalize π fuel s t) := by
  refine Contract.obeys_normalize (Contract.truthful_lenient hn) trivial hG ?_ ?_ ?_ hw fuel hs
  · exact fun _ _ _ => trivial
  · exact fun s t n _ hknown => hknown n rfl
  · exact fun s t n _ hn => ⟨normalForm_iff.mpr hn, normalForm_iff.mpr hn⟩

/-- A normal form that is found without a memory is found with one, too: what is recalled is no
other term, as normal forms are unique. -/
theorem steady_normalize (π : Policy) (fuel : Nat) (s : Scope) (t : Term) :
    ((Contract.truthful π (fun _ => True) False).steady
      (Contract.truthful_lenient fun _ _ => trivial)).Holds (NormalForm π s t)
      (normalize π fuel s t) := by
  refine Judgement.normalize_of_round invariant_true (fun _ _ _ _ _ _ => ?_)
    (fun n s t _ hsettle u hu => ?_) fuel trivial
  · exact fun _ _ _ _ _ => ⟨trivial, .ask trivial fun _ _ => .done rfl⟩
  · have hsu : NormalFormWithin π (n + 1) s t u := hu
    obtain ⟨hst, hj⟩ := hsettle u (normalFormWithin_succ_iff.mp hsu)
    have hn : NormalForm π s t u := normalForm_iff.mpr hst
    refine ⟨hn, ?_⟩
    rw [normalize_succ]
    refine .ask trivial fun known? hknown => ?_
    cases known? with
    | some n => exact .ask trivial fun _ _ => .done ((hknown n rfl).unique hn)
    | none =>
        refine Job.Obeys.bind (P := (· = u)) hj ?_
        rintro _ rfl
        exact .ask hn fun _ _ => .done rfl

/-! ## Calls -/

/-- What calls are answered with if `N` says which terms come to which normal forms. -/
def Call.Means (π : Policy) (N : Normalization) : (c : Call) → c.Answer → Prop
  | .normalize s t => N s t
  | .normalizeElements s t => Elementwise N s t
  | .reduceOnce s t => Reduces π N s t
  | .evaluate t => N (.base π) t
  | .evaluateText text => fun a =>
      match Form.parse text with
      | .error e => a = .error e
      | .ok f => ∃ u, N (.base π) (Term.ofForm f) u ∧ a = .ok u
  | .apply r s t => Applies π N s t r

theorem Judgement.share {J : Judgement} (f : Form) :
    J.Holds (· = Term.ofForm f) (f.share : Job Term) :=
  J.bind (J.internAll _) fun _ _ => J.pure rfl

theorem Judgement.call {J : Judgement} {N : Normalization} {fuel : Nat}
    (h : ∀ s t, J.Holds (N s t) (normalize π fuel s t)) (hw : ∀ t, J.Warns t) (c : Call) :
    J.Holds (c.Means π N) (c.job π fuel) := by
  cases c with
  | normalize s t => exact h s t
  | normalizeElements s t => exact Judgement.normalizeElements fun _ _ u _ => h s u
  | reduceOnce s t => exact Judgement.reduceOnce (fun s' u _ => h s' u) fun t' _ _ => hw t'
  | evaluate t => exact h _ t
  | evaluateText text =>
      simp only [Call.job, Call.Means, evaluateText]
      cases Form.parse text with
      | error e => exact J.pure rfl
      | ok f =>
          refine J.bind (Judgement.share f) ?_
          rintro _ rfl
          exact J.bind (h _ _) fun u hu => J.pure ⟨u, hu, rfl⟩
  | apply r s t => exact Judgement.apply (fun s' u _ => h s' u) fun _ => hw t

theorem obeys_call (fuel : Nat) (c : Call) :
    Job.Obeys (.truthful π (fun _ => True) True) (c.Means π (NormalForm π)) (c.job π fuel) := by
  let J := (Contract.truthful π (fun _ => True) True).judgement
    (Contract.truthful_lenient fun _ _ => trivial) trivial
  refine Judgement.call (J := J) (fun s t => ?_) (fun t d _ _ => ?_) c
  · exact obeys_normalize (fun _ _ => trivial) invariant_true (fun _ _ _ _ _ _ _ _ _ => trivial)
      fuel trivial
  · exact .ask trivial fun _ _ => .done trivial

theorem steady_call (fuel : Nat) (c : Call) {a : c.Answer}
    (ha : (c.job π fuel).forgetful = some a) :
    Job.Obeys (.truthful π (fun _ => True) False) (· = a) (c.job π fuel) := by
  let J := (Contract.truthful π (fun _ => True) False).steady
    (Contract.truthful_lenient fun _ _ => trivial)
  have hc : J.Holds (c.Means π (NormalForm π)) (c.job π fuel) := by
    refine Judgement.call (fun s t => steady_normalize π fuel s t) (fun t d _ _ => ?_) c
    exact fun _ _ => ⟨trivial, .ask trivial fun _ _ => .done rfl⟩
  exact (hc a ha).2

theorem forgetful_evaluateText (π : Policy) (fuel : Nat) (text : String) :
    Job.forgetful (evaluateText π fuel text) =
      match Form.parse text with
      | .error e => some (.error e)
      | .ok f => (Job.forgetful (evaluate π fuel (Term.ofForm f))).map .ok := by
  unfold evaluateText
  cases Form.parse text with
  | error e => rfl
  | ok f =>
      simp only [Form.share, Job.forgetful_bind, Job.forgetful_internAll, Job.pure_eq,
        Job.forgetful_done, Option.bind_some, Option.map_eq_bind]
      rfl

theorem result_of_means {c : Call} {a : c.Answer} (h : c.Means π (NormalForm π) a) :
    c.Result π a := by
  have hN : ∀ s t u, NormalForm π s t u →
      ∀ᶠ n in Filter.atTop, Job.forgetful (normalize π n s t) = some u :=
    fun _ _ _ hu => hu.eventually
  cases c with
  | normalize s t => exact h
  | normalizeElements s t => exact (forgetful_normalizeElements hN h).exists
  | reduceOnce s t => exact (forgetful_reduceOnce hN h).exists
  | evaluate t => exact h
  | evaluateText text =>
      have htext : ∃ fuel, Job.forgetful (evaluateText π fuel text) = some a := by
        simp only [forgetful_evaluateText]
        simp only [Call.Means] at h
        cases hp : Form.parse text with
        | error e =>
            simp only [hp] at h
            exact ⟨0, congrArg some h.symm⟩
        | ok f =>
            simp only [hp] at h
            obtain ⟨u, ⟨n, hu⟩, rfl⟩ := h
            exact ⟨n, congrArg (Option.map _) hu⟩
      exact htext
  | apply r s t => exact (forgetful_apply hN h).exists

theorem result_iff_means {c : Call} {a : c.Answer} :
    c.Result π a ↔ c.Means π (NormalForm π) a := by
  refine ⟨?_, result_of_means⟩
  rintro ⟨fuel, ha⟩
  have hN : ∀ s t, forgetfully.Holds (NormalForm π s t) (normalize π fuel s t) :=
    fun _ _ _ hu => ⟨fuel, hu⟩
  exact Judgement.call (J := forgetfully) hN (fun _ _ _ _ _ _ => trivial) c a ha

theorem Elementwise.unique {s : Scope} {t u v : Term} (hu : Elementwise (NormalForm π) s t u)
    (hv : Elementwise (NormalForm π) s t v) : u = v :=
  Call.Result.unique (result_of_means (c := .normalizeElements s t) hu)
    (result_of_means (c := .normalizeElements s t) hv)

theorem Engine.Filled.sound {engine : Engine} (h : engine.Filled π) : engine.cache.Sound π := by
  have hupholds := upholds_truthful π (fun _ => True) True .empty
  induction h with
  | fresh => exact Cache.sound_empty
  | call fuel c _ ih => exact ((obeys_call fuel c).run_keeps hupholds ⟨ih, Cache.within_empty _⟩).1
  | share f _ ih =>
      let J := (Contract.truthful π (fun _ => True) True).judgement
        (Contract.truthful_lenient fun _ _ => trivial) trivial
      have hf : Job.Obeys _ _ _ := Judgement.share (J := J) f
      exact (hf.run_keeps hupholds ⟨ih, Cache.within_empty _⟩).1
  | clear _ _ => exact Cache.sound_empty

/-- What an engine remembers makes it need no larger allowance. -/
theorem Engine.Filled.run_eq {engine : Engine} (h : engine.Filled π) {c : Call} {a : c.Answer}
    {fuel : Nat} (ha : (c.job π fuel).forgetful = some a) :
    ((c.job π fuel).run engine).1 = some a := by
  have hupholds := upholds_truthful π (fun _ => True) False engine.cache
  obtain ⟨_, rfl, hrun⟩ := (steady_call fuel c ha).run_isSome id hupholds ⟨h.sound, .refl _⟩
  exact hrun

theorem Engine.Filled.answers_iff {engine : Engine} (h : engine.Filled π) (c : Call)
    (a : c.Answer) : engine.Answers π c a ↔ c.Result π a := by
  constructor
  · rintro ⟨fuel, ha⟩
    have hupholds := upholds_truthful π (fun _ => True) True engine.cache
    exact result_of_means ((obeys_call fuel c).run_result hupholds ⟨h.sound, .refl _⟩ ha)
  · rintro ⟨fuel, ha⟩
    exact ⟨fuel, h.run_eq ha⟩

theorem Engine.Filled.normalizes_iff {engine : Engine} (h : engine.Filled π) {s : Scope}
    {t u : Term} : engine.Answers π (.normalize s t) u ↔ NormalForm π s t u :=
  h.answers_iff (.normalize s t) u

theorem Engine.Filled.applies_iff {engine : Engine} (h : engine.Filled π) {r : Rule} {s : Scope}
    {t : Term} {u? : Option Term} :
    engine.Answers π (.apply r s t) u? ↔ Applies π (NormalForm π) s t r u? :=
  (h.answers_iff (.apply r s t) u?).trans result_iff_means

/-! ## What is left in the memory -/

theorem Engine.Filled.within_run {engine : Engine} (h : engine.Filled π) (fuel : Nat) (c : Call) :
    engine.cache.Within ((c.job π fuel).run engine).2.cache := by
  have hupholds := upholds_truthful π (fun _ => True) True engine.cache
  exact ((obeys_call fuel c).run_keeps hupholds ⟨h.sound, .refl _⟩).2

theorem run_normalize_succ (π : Policy) (n : Nat) (s : Scope) (t : Term) (engine : Engine) :
    Job.run (normalize π (n + 1) s t) engine =
      match engine.cache.get? s t with
      | some normal => (some normal, engine.note (.known t))
      | none =>
          match Job.run (settle (reduceOnce π (normalize π n) s) n t) engine with
          | (some normal, engine) =>
              (some normal, { engine with cache := engine.cache.insert s t normal })
          | (none, engine) => (none, engine) := by
  rw [normalize_succ]
  simp only [Job.run, Engine.serve]
  cases engine.cache.get? s t with
  | some v => rfl
  | none =>
      simp only [Job.run_bind]
      cases Job.run (settle (reduceOnce π (normalize π n) s) n t) engine with
      | mk v? engine => cases v? <;> rfl

theorem get?_run_normalize {engine : Engine} {fuel : Nat} {s : Scope} {t u : Term}
    (h : (Job.run (normalize π fuel s t) engine).1 = some u) :
    (Job.run (normalize π fuel s t) engine).2.cache.get? s t = some u := by
  cases fuel with
  | zero => cases h
  | succ n =>
      rw [run_normalize_succ] at h ⊢
      cases hknown : engine.cache.get? s t with
      | some v =>
          rw [hknown] at h
          cases h
          simp [hknown]
      | none =>
          rw [hknown] at h
          simp only at h ⊢
          split at h
          · next heq =>
              cases h
              simp [Cache.get?_insert]
          · cases h

/-- An engine answers a call if and only if an engine does that remembers nothing, and alike. The
normal form that it answers with is remembered from then on, and no call changes what is remembered
already. -/
theorem memory_transparent {engine : Engine} (h : engine.Filled π) :
    (∀ (c : Call) (a : c.Answer), engine.Answers π c a ↔ c.Result π a) ∧
    (∀ fuel s t u, (((Call.normalize s t).job π fuel).run engine).1 = some u →
      (((Call.normalize s t).job π fuel).run engine).2.cache.get? s t = some u) ∧
    ∀ fuel (c : Call) s t u, engine.cache.get? s t = some u →
      ((c.job π fuel).run engine).2.cache.get? s t = some u := by
  refine ⟨h.answers_iff, fun fuel s t u hu => ?_, fun fuel c => h.within_run fuel c⟩
  exact get?_run_normalize hu

/-- `[A -> B A]` -/
private def sample : Term :=
  Term.Directive.toTerm ⟨.atom ⟨"A"⟩, .atom ⟨"B"⟩, .atom ⟨"A"⟩⟩

private def experienced : Engine := (((Call.evaluate sample).job .standard 5).run {}).2

theorem memory_transparent_second_time :
    experienced.Filled .standard ∧
      experienced.Answers .standard (.evaluate sample) (.atom ⟨"B"⟩) := by
  have h : experienced.Filled .standard := .call 5 (.evaluate sample) .fresh
  have hB : Job.forgetful (evaluate .standard 5 sample) = some (.atom ⟨"B"⟩) := by decide +kernel
  exact ⟨h, ((memory_transparent h).1 (.evaluate sample) _).mpr ⟨5, hB⟩⟩

end ScopedRewriting
