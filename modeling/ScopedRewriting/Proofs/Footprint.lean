import Mathlib.Data.Set.Finite.List
import Mathlib.Order.Filter.Finite
import ScopedRewriting.Proofs.Memory

/-!
# What calls leave behind

Where a normal form is recalled, a whole part of a job is left out, with the entries and names that
it would have stored. They are there already: with an entry, all is kept that was stored on the way
to it (`Engine.Closed`). So a call adds to an engine what it leaves in a fresh one, and the order of
calls makes no difference (`left_is_union`).
-/

namespace ScopedRewriting

open Filter

variable {π : Policy} {α β : Type}

/-! ## What is kept and what is demanded -/

/-- What the request is to store is kept already. -/
def Engine.Keeps (engine : Engine) : Request → Prop
  | .memorize s t n => engine.cache.get? s t = some n
  | .intern a => a ∈ engine.names
  | .recall .. | .cacheSize | .note _ => True

/-- An engine that remembers nothing is asked for `q` on the way to the answer. -/
def Call.Demands (π : Policy) (c : Call) (q : Request) : Prop :=
  ∃ fuel, (c.job π fuel).forgetful.isSome ∧ q ∈ (c.job π fuel).demands

theorem Call.demands_iff {c : Call} {fuel : Nat} {a : c.Answer} {q : Request}
    (ha : (c.job π fuel).forgetful = some a) : c.Demands π q ↔ q ∈ (c.job π fuel).demands := by
  constructor
  · rintro ⟨n, hb, hq⟩
    obtain ⟨b, hb⟩ := Option.isSome_iff_exists.mp hb
    rcases Nat.le_total n fuel with h | h
    · exact (c.approximates h).demands_eq hb ▸ hq
    · exact (c.approximates h).demands_eq ha ▸ hq
  · intro hq
    exact ⟨fuel, Option.isSome_iff_exists.mpr ⟨a, ha⟩, hq⟩

/-- Entries are normal forms, and all that is stored on the way to them is kept. -/
structure Engine.Closed (π : Policy) (engine : Engine) : Prop where
  sound : engine.cache.Sound π
  keeps {s : Scope} {t n : Term} {q : Request} : engine.cache.get? s t = some n →
    (Call.normalize s t).Demands π q → engine.Keeps q

theorem Engine.closed_fresh : ({} : Engine).Closed π where
  sound := Cache.sound_empty
  keeps h := by simp at h

/-! ## Serving a request -/

/-- What is stored is a normal form, and what is stored on the way to it is kept. -/
def Request.Ripe (π : Policy) (engine : Engine) : Request → Prop
  | .memorize s t n => NormalForm π s t n ∧
      ∀ q, (Call.normalize s t).Demands π q → engine.Keeps q ∨ q = .memorize s t n
  | _ => True

@[simp]
theorem Engine.names_note (engine : Engine) (e : Event) : (engine.note e).names = engine.names := by
  unfold note
  split <;> rfl

theorem Engine.keeps_note (engine : Engine) (e : Event) (q : Request) :
    (engine.note e).Keeps q ↔ engine.Keeps q := by
  cases q <;> simp [Keeps]

theorem Engine.keeps_serve {engine : Engine} (h : engine.cache.Sound π) {q : Request}
    (hq : q.Ripe π engine) (q' : Request) :
    (engine.serve q).2.Keeps q' ↔ engine.Keeps q' ∨ q' = q := by
  match q, hq with
  | .memorize s t n, hq =>
      cases q' with
      | memorize s' t' n' =>
          rw [Request.memorize.injEq]
          exact h.get?_insert_iff hq.1
      | intern a => simp [serve, Keeps]
      | _ => simp [Keeps]
  | .intern a, _ =>
      cases q' with
      | intern b => simp [serve, Keeps, Names.mem_insert, or_comm, eq_comm]
      | memorize s t n => simp [serve, Keeps]
      | _ => simp [Keeps]
  | .recall .., _ | .cacheSize, _ | .note _, _ => cases q' <;> simp [serve, Keeps]

theorem Engine.Closed.serve {engine : Engine} (h : engine.Closed π) {q : Request}
    (hq : q.Ripe π engine) : (engine.serve q).2.Closed π := by
  have hkeeps := Engine.keeps_serve h.sound hq
  have hentry {s t n} (hn : (engine.serve q).2.cache.get? s t = some n) :
      engine.cache.get? s t = some n ∨ .memorize s t n = q :=
    (hkeeps (.memorize s t n)).mp hn
  constructor
  · intro s t n hn
    rcases hentry hn with hn | rfl
    · exact h.sound s t n hn
    · exact hq.1
  · intro s t n q' hn hq'
    refine (hkeeps q').mpr ?_
    rcases hentry hn with hn | rfl
    · exact .inl (h.keeps hn hq')
    · exact hq.2 q' hq'

/-! ## What jobs leave behind -/

/-- A closed engine comes to the result `a`; after that it is closed, and keeps what it kept before
and what the job demands. -/
def Job.Adds (π : Policy) (j : Job α) (a : α) : Prop :=
  ∀ engine : Engine, engine.Closed π → ∃ engine', j.run engine = (some a, engine') ∧
    engine'.Closed π ∧ ∀ q, engine'.Keeps q ↔ engine.Keeps q ∨ q ∈ j.demands

namespace Job

theorem Adds.done (a : α) : (done a).Adds π a := by
  intro engine h
  exact ⟨engine, rfl, h, by simp [demands]⟩

theorem Adds.bind {j : Job α} {f : α → Job β} {a : α} {b : β} (ha : j.forgetful = some a)
    (hj : j.Adds π a) (hf : (f a).Adds π b) : (j >>= f).Adds π b := by
  intro engine h
  obtain ⟨engine', hrun, h', hkeeps⟩ := hj engine h
  obtain ⟨engine'', hrun', h'', hkeeps'⟩ := hf engine' h'
  refine ⟨engine'', ?_, h'', fun q => ?_⟩
  · rw [run_bind, hrun]
    exact hrun'
  · rw [hkeeps', hkeeps, demands_bind, ha, List.mem_append, or_assoc]
    rfl

/-- The reply does not matter, and nothing that is not ripe is stored. -/
theorem Adds.ask {q : Request} {next : q.Reply → Job α} {a : α}
    (hq : ∀ engine : Engine, q.Ripe π engine) (hnext : ∀ reply, next reply = .done a) :
    (Job.ask q next).Adds π a := by
  intro engine h
  refine ⟨(engine.serve q).2, ?_, h.serve (hq engine), fun q' => ?_⟩
  · exact congrArg (run · (engine.serve q).2) (hnext _)
  · rw [Engine.keeps_serve h.sound (hq engine), demands, hnext, demands, List.mem_singleton]

end Job

/-- What the job results in for an engine that remembers nothing, it results in for a closed one,
which is left with what the job demands. -/
def additively (π : Policy) : Judgement where
  Holds P j := ∀ a, j.forgetful = some a → P a ∧ j.Adds π a
  pure h a ha := by
    cases ha
    exact ⟨h, .done _⟩
  bind hj hf b hb := by
    obtain ⟨a, ha, hb⟩ := Job.forgetful_bind_eq_some_iff.mp hb
    obtain ⟨hp, hja⟩ := hj a ha
    obtain ⟨hq, hfb⟩ := hf a hp b hb
    exact ⟨hq, hja.bind ha hfb⟩
  exhausted _ ha := by cases ha
  intern a _ _ := ⟨trivial, .ask (fun _ => trivial) fun _ => rfl⟩
  note e _ _ _ := ⟨trivial, .ask (fun _ => trivial) fun _ => rfl⟩

theorem additively_warns (t : Term) : (additively π).Warns t :=
  fun _ _ _ _ _ => ⟨trivial, .ask (fun _ => trivial) fun _ => rfl⟩

theorem demands_normalize_succ {n : Nat} {s : Scope} {t u : Term}
    (hu : Job.forgetful (settle (reduceOnce π (normalize π n) s) n t) = some u) :
    Job.demands (normalize π (n + 1) s t) =
      .recall s t :: (Job.demands (settle (reduceOnce π (normalize π n) s) n t) ++
        [.memorize s t u]) := by
  rw [normalize_succ]
  refine congrArg (Request.recall s t :: ·) ?_
  refine (Job.demands_bind (settle (reduceOnce π (normalize π n) s) n t) _).trans ?_
  rw [hu]
  rfl

/-- Whether the normal form is recalled or found, the engine is left with the same. -/
theorem adds_normalize_succ {n : Nat} {s : Scope} {t u : Term}
    (hu : NormalFormWithin π (n + 1) s t u)
    (hadds : Job.Adds π (settle (reduceOnce π (normalize π n) s) n t) u) :
    Job.Adds π (normalize π (n + 1) s t) u := by
  have hcall : ((Call.normalize s t).job π (n + 1)).forgetful = some u := hu
  have hdemands (q : Request) : (Call.normalize s t).Demands π q ↔
      q ∈ Job.demands (normalize π (n + 1) s t) :=
    Call.demands_iff hcall
  have hmem (q : Request) : q ∈ Job.demands (normalize π (n + 1) s t) ↔
      q = .recall s t ∨ q ∈ Job.demands (settle (reduceOnce π (normalize π n) s) n t) ∨
        q = .memorize s t u := by
    rw [demands_normalize_succ (normalFormWithin_succ_iff.mp hu), List.mem_cons, List.mem_append,
      List.mem_singleton]
  have hn : NormalForm π s t u := ⟨n + 1, hu⟩
  intro engine h
  rw [run_normalize_succ]
  cases hknown : engine.cache.get? s t with
  | some v =>
      obtain rfl := (h.sound s t v hknown).unique hn
      refine ⟨_, rfl, h.serve (q := .note _) trivial, fun q => ?_⟩
      rw [Engine.keeps_note, iff_self_or]
      exact fun hq => h.keeps hknown ((hdemands q).mpr hq)
  | none =>
      obtain ⟨engine', hrun, h', hkeeps⟩ := hadds engine h
      have hripe : (Request.memorize s t u).Ripe π engine' := by
        refine ⟨hn, fun q hq => ?_⟩
        rcases (hmem q).mp ((hdemands q).mp hq) with rfl | hq | rfl
        · exact .inl trivial
        · exact .inl ((hkeeps q).mpr (.inr hq))
        · exact .inr rfl
      refine ⟨(engine'.serve (.memorize s t u)).2, ?_, h'.serve hripe, fun q => ?_⟩
      · simp only [hrun]
        rfl
      · have hrecall : q = .recall s t → engine.Keeps q := by
          rintro rfl
          trivial
        rw [Engine.keeps_serve h'.sound hripe, hkeeps, hmem]
        tauto

theorem additively_normalize (fuel : Nat) (s : Scope) (t : Term) :
    (additively π).Holds (NormalForm π s t) (normalize π fuel s t) := by
  refine Judgement.normalize_of_round invariant_true (fun _ _ t' _ _ _ => additively_warns t')
    (fun n s t _ hsettle u hu => ?_) fuel trivial
  obtain ⟨_, hadds⟩ := hsettle u (normalFormWithin_succ_iff.mp hu)
  exact ⟨⟨n + 1, hu⟩, adds_normalize_succ hu hadds⟩

theorem adds_call {c : Call} {fuel : Nat} {a : c.Answer} (ha : (c.job π fuel).forgetful = some a) :
    (c.job π fuel).Adds π a :=
  (Judgement.call (additively_normalize fuel) additively_warns c a ha).2

/-! ## Calls one after the other -/

/-- Answers calls one after the other; yields `none` if the allowance of steps was used up. -/
def Engine.answerAll (π : Policy) (fuel : Nat) (engine : Engine) : List Call → Option Engine
  | [] => some engine
  | c :: cs =>
      match (c.job π fuel).run engine with
      | (some _, engine) => engine.answerAll π fuel cs
      | (none, _) => none

/-- The engine was fresh and has answered the calls one after the other. -/
def Engine.LeftBy (π : Policy) (engine : Engine) (cs : List Call) : Prop :=
  ∃ fuel, ({} : Engine).answerAll π fuel cs = some engine

variable {engine engine' : Engine} {c : Call} {cs : List Call} {n k : Nat}

theorem Engine.answerAll_cons : engine.answerAll π n (c :: cs) = some engine' ↔
    ∃ a between, (c.job π n).run engine = (some a, between) ∧
      between.answerAll π n cs = some engine' := by
  rw [answerAll]
  split
  · next a between hrun => simp [hrun]
  · next between hrun => simp [hrun]

theorem Engine.answerAll_mono (hn : n ≤ k) (h : engine.answerAll π n cs = some engine') :
    engine.answerAll π k cs = some engine' := by
  induction cs generalizing engine with
  | nil => exact h
  | cons c cs ih =>
      obtain ⟨a, between, hrun, hcs⟩ := answerAll_cons.mp h
      refine answerAll_cons.mpr ⟨a, between, ?_, ih hcs⟩
      rw [(c.approximates hn).run_eq (congrArg Prod.fst hrun), hrun]

theorem Engine.answerAll_adds (h : ∀ c ∈ cs, ∃ a, (c.job π n).forgetful = some a)
    (hc : engine.Closed π) : ∃ engine', engine.answerAll π n cs = some engine' ∧
      ∀ q, engine'.Keeps q ↔ engine.Keeps q ∨ ∃ c ∈ cs, c.Demands π q := by
  induction cs generalizing engine with
  | nil => exact ⟨engine, rfl, by simp⟩
  | cons c cs ih =>
      obtain ⟨ha, hcs⟩ := List.forall_mem_cons.mp h
      obtain ⟨a, ha⟩ := ha
      obtain ⟨between, hrun, hbetween, hkeeps⟩ := adds_call ha engine hc
      obtain ⟨engine', hanswer, hkeeps'⟩ := ih hcs hbetween
      refine ⟨engine', answerAll_cons.mpr ⟨a, between, hrun, hanswer⟩, fun q => ?_⟩
      rw [hkeeps', hkeeps, ← Call.demands_iff ha, List.exists_mem_cons_iff, or_assoc]

theorem Engine.results_of_answerAll (hf : engine.Filled π)
    (h : engine.answerAll π n cs = some engine') : ∀ c ∈ cs, ∃ a, c.Result π a := by
  induction cs generalizing engine with
  | nil => simp
  | cons c cs ih =>
      obtain ⟨a, between, hrun, hcs⟩ := answerAll_cons.mp h
      have hbetween : between.Filled π := by
        have := hf.call n c
        rwa [hrun] at this
      refine List.forall_mem_cons.mpr ⟨⟨a, (hf.answers_iff c a).mp ⟨n, ?_⟩⟩, ih hbetween hcs⟩
      rw [hrun]

theorem eventually_forgetful (h : ∀ c ∈ cs, ∃ a, c.Result π a) :
    ∀ᶠ n in atTop, ∀ c ∈ cs, ∃ a, (c.job π n).forgetful = some a := by
  refine (Filter.eventually_all_finite cs.finite_toSet).mpr fun c hc => ?_
  obtain ⟨a, n, ha⟩ := h c hc
  refine eventually_atTop.mpr ⟨n, fun k hk => ⟨a, ?_⟩⟩
  exact (c.approximates hk).forgetful_eq ha

theorem exists_leftBy_iff :
    (∃ engine : Engine, engine.LeftBy π cs) ↔ ∀ c ∈ cs, ∃ a, c.Result π a := by
  constructor
  · rintro ⟨engine, n, h⟩
    exact Engine.results_of_answerAll .fresh h
  · intro h
    obtain ⟨n, hn⟩ := (eventually_forgetful h).exists
    obtain ⟨engine, hengine, _⟩ := Engine.answerAll_adds hn Engine.closed_fresh
    exact ⟨engine, n, hengine⟩

theorem Engine.LeftBy.keeps_iff (h : engine.LeftBy π cs) (q : Request) :
    engine.Keeps q ↔ ({} : Engine).Keeps q ∨ ∃ c ∈ cs, c.Demands π q := by
  have hresults := exists_leftBy_iff.mp ⟨engine, h⟩
  obtain ⟨n, hn⟩ := h
  obtain ⟨k, hk, hnk⟩ := ((eventually_forgetful hresults).and (eventually_ge_atTop n)).exists
  obtain ⟨engine', hengine', hkeeps⟩ := answerAll_adds hk closed_fresh
  have heq : some engine = some engine' := (answerAll_mono hnk hn).symm.trans hengine'
  cases heq
  exact hkeeps q

/-- What a fresh engine does not keep is left by calls if and only if one of them leaves it. -/
theorem Engine.LeftBy.keeps_iff_exists (h : engine.LeftBy π cs) {q : Request}
    (hq : ¬ ({} : Engine).Keeps q) :
    engine.Keeps q ↔ ∃ c ∈ cs, ∃ alone : Engine, alone.LeftBy π [c] ∧ alone.Keeps q := by
  have hresults := exists_leftBy_iff.mp ⟨engine, h⟩
  rw [h.keeps_iff, or_iff_right hq]
  refine exists_congr fun c => and_congr_right fun hc => ?_
  constructor
  · intro hd
    obtain ⟨alone, halone⟩ := exists_leftBy_iff.mpr (List.forall_mem_singleton.mpr (hresults c hc))
    exact ⟨alone, halone, (halone.keeps_iff q).mpr (.inr ⟨c, List.mem_singleton_self c, hd⟩)⟩
  · rintro ⟨alone, halone, hkeeps⟩
    simpa [hq] using (halone.keeps_iff q).mp hkeeps

/-! ## Texts one after the other -/

theorem result_evaluateText_iff {text : String} :
    (∃ a, (Call.evaluateText text).Result π a) ↔
      ∀ f, Form.parse text = .ok f → Normalizing π (.base π) (.ofForm f) := by
  simp only [result_iff_means, Call.Means]
  cases Form.parse text with
  | error e => exact ⟨fun _ _ h => (by cases h), fun _ => ⟨.error e, rfl⟩⟩
  | ok f =>
      constructor
      · rintro ⟨_, u, hu, rfl⟩ _ ⟨⟩
        exact ⟨u, hu⟩
      · intro h
        obtain ⟨u, hu⟩ := h f rfl
        exact ⟨.ok u, u, hu, rfl⟩

section

variable {texts : List String} (h : engine.LeftBy π (texts.map .evaluateText))

include h

theorem Engine.LeftBy.entry_iff (s : Scope) (t n : Term) :
    engine.cache.get? s t = some n ↔ ∃ text ∈ texts, ∃ alone : Engine,
      alone.LeftBy π [.evaluateText text] ∧ alone.cache.get? s t = some n := by
  have hfresh : ¬ ({} : Engine).Keeps (.memorize s t n) := by simp [Keeps]
  simpa [Keeps] using h.keeps_iff_exists hfresh

theorem Engine.LeftBy.name_iff (a : Atom) :
    a ∈ engine.names ↔ ∃ text ∈ texts, ∃ alone : Engine,
      alone.LeftBy π [.evaluateText text] ∧ a ∈ alone.names := by
  have hfresh : ¬ ({} : Engine).Keeps (.intern a) := Names.not_mem_empty a
  simpa [Keeps] using h.keeps_iff_exists hfresh

end

/-- Texts can be evaluated one after the other if each of them either cannot be read or says a term
that has a normal form. The entries and the names that are left are those that each of the texts
leaves in an engine of its own, so it does not matter in which order the texts come and how
often. -/
theorem left_is_union (texts : List String) :
    ((∃ engine : Engine, engine.LeftBy π (texts.map .evaluateText)) ↔
      ∀ text ∈ texts, ∀ f, Form.parse text = .ok f → Normalizing π (.base π) (.ofForm f)) ∧
    ∀ engine : Engine, engine.LeftBy π (texts.map .evaluateText) →
      (∀ s t n, engine.cache.get? s t = some n ↔ ∃ text ∈ texts, ∃ alone : Engine,
        alone.LeftBy π [.evaluateText text] ∧ alone.cache.get? s t = some n) ∧
      (∀ a, a ∈ engine.names ↔ ∃ text ∈ texts, ∃ alone : Engine,
        alone.LeftBy π [.evaluateText text] ∧ a ∈ alone.names) ∧
      ∀ (texts' : List String) (engine' : Engine), (∀ text, text ∈ texts' ↔ text ∈ texts) →
        engine'.LeftBy π (texts'.map .evaluateText) →
          (∀ s t, engine'.cache.get? s t = engine.cache.get? s t) ∧
          engine'.cache.size = engine.cache.size ∧
          (∀ a, a ∈ engine'.names ↔ a ∈ engine.names) ∧
          engine'.names.size = engine.names.size := by
  refine ⟨?_, fun engine h => ⟨h.entry_iff, h.name_iff, fun texts' engine' htexts h' => ?_⟩⟩
  · rw [exists_leftBy_iff, List.forall_mem_map]
    exact forall₂_congr fun text _ => result_evaluateText_iff
  · have hget (s : Scope) (t : Term) : engine'.cache.get? s t = engine.cache.get? s t := by
      refine Option.ext fun n => ?_
      rw [h.entry_iff, h'.entry_iff]
      simp only [htexts]
    have hmem (a : Atom) : a ∈ engine'.names ↔ a ∈ engine.names := by
      rw [h.name_iff, h'.name_iff]
      simp only [htexts]
    exact ⟨hget, Cache.size_eq_of_get?_eq hget, hmem, Names.size_eq_of_mem_iff hmem⟩

/-- The second text cannot be read. -/
theorem left_is_union_reordered : ∃ engine engine' : Engine,
    engine.LeftBy .standard (["[A -> B A]", "]"].map .evaluateText) ∧
    engine'.LeftBy .standard (["]", "[A -> B A]", "]"].map .evaluateText) ∧
    engine'.cache.size = engine.cache.size ∧ engine'.names.size = engine.names.size := by
  have hends : ∀ text ∈ ["[A -> B A]", "]"], ∀ f, Form.parse text = .ok f →
      Normalizing .standard (.base .standard) (.ofForm f) := by
    have hread : (Form.parse "[A -> B A]").map Term.ofForm =
        .ok (Term.Directive.toTerm ⟨.atom ⟨"A"⟩, .atom ⟨"B"⟩, .atom ⟨"A"⟩⟩) := by decide +kernel
    have hfails : (Form.parse "]").map Term.ofForm = .error .unmatchedBracket := by decide +kernel
    refine List.forall_mem_cons.mpr ⟨fun f hf => ?_, List.forall_mem_singleton.mpr fun f hf => ?_⟩
    · rw [hf] at hread
      rw [Except.ok.inj hread]
      exact ⟨.atom ⟨"B"⟩, 5, by decide +kernel⟩
    · rw [hf] at hfails
      cases hfails
  obtain ⟨engine, h⟩ := (left_is_union ["[A -> B A]", "]"]).1.mpr hends
  obtain ⟨engine', h'⟩ := (left_is_union ["]", "[A -> B A]", "]"]).1.mpr fun text htext =>
    hends text (by grind)
  obtain ⟨_, _, hsame⟩ := (left_is_union _).2 engine h
  obtain ⟨_, hcache, _, hnames⟩ := hsame _ engine' (by grind) h'
  exact ⟨engine, engine', h, h', hcache, hnames⟩

end ScopedRewriting
