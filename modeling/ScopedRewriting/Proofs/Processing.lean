import ScopedRewriting.Program.Process
import ScopedRewriting.Proofs.Memory

/-!
# Processing a source

What processing a source results in does not depend on what the engine knows
(`Engine.Filled.processes_iff`): the source cannot be read, or what was read is printed after the
last stage that the options leave.
-/

namespace ScopedRewriting

variable {π : Policy} {o : Options} {path : String} {source : ByteArray}

/-- What is printed for a form that was read. -/
def Options.Prints (π : Policy) (o : Options) (f : Form) (out : String) : Prop :=
  if o.omits .share then out = f.text ++ "\n"
  else if o.omits .eval then out = o.render (.ofForm f)
  else ∃ u, NormalForm π (.base π) (.ofForm f) u ∧ out = o.render u

theorem Options.exists_prints {f : Form} (o : Options)
    (h : Normalizing π (.base π) (.ofForm f)) : ∃ out, o.Prints π f out := by
  obtain ⟨u, hu⟩ := h
  unfold Prints
  split
  · exact ⟨_, rfl⟩
  · split
    · exact ⟨_, rfl⟩
    · exact ⟨_, u, hu, rfl⟩

/-- The form that a source says. -/
def Form.ofSource (source : ByteArray) : Except Failure Form :=
  match String.fromUTF8? source with
  | none => .error .notText
  | some text => (Form.parse text).mapError .read

theorem Form.ofSource_eq_ok_iff {f : Form} : Form.ofSource source = .ok f ↔
    ∃ text, String.fromUTF8? source = some text ∧ Form.parse text = .ok f := by
  unfold ofSource
  cases String.fromUTF8? source with
  | none => simp
  | some text => cases hf : Form.parse text <;> simp [hf, Except.mapError]

/-- What processing the source results in. -/
inductive Options.Yields (π : Policy) (o : Options) (source : ByteArray) :
    Except Failure String → Prop
  | fail {e : Failure} : Form.ofSource source = .error e → Yields π o source (.error e)
  | print {f : Form} {out : String} : Form.ofSource source = .ok f → o.Prints π f out →
      Yields π o source (.ok out)

theorem Options.yields_iff_of_error {e : Failure} {r : Except Failure String}
    (h : Form.ofSource source = .error e) : o.Yields π source r ↔ r = .error e := by
  constructor
  · intro hr
    cases hr with
    | fail h' =>
        cases h.symm.trans h'
        rfl
    | print h' _ => cases h.symm.trans h'
  · rintro rfl
    exact .fail h

theorem Options.yields_iff_of_ok {f : Form} {r : Except Failure String}
    (h : Form.ofSource source = .ok f) :
    o.Yields π source r ↔ ∃ out, o.Prints π f out ∧ r = .ok out := by
  constructor
  · intro hr
    cases hr with
    | fail h' => cases h.symm.trans h'
    | print h' hout =>
        cases h.symm.trans h'
        exact ⟨_, hout, rfl⟩
  · rintro ⟨_, hout, rfl⟩
    exact .print h hout

/-- The engine processes the source with the result, as long as enough steps are allowed. -/
def Engine.Processes (π : Policy) (engine : Engine) (o : Options) (path : String)
    (source : ByteArray) (r : Except Failure String) : Prop :=
  ∃ fuel, (Job.run (process π fuel o path source) engine).1 = some r

theorem Judgement.process {J : Judgement} {fuel : Nat}
    (h : ∀ s t, J.Holds (NormalForm π s t) (normalize π fuel s t))
    (hsize : ∀ r : Except Failure String, J.Holds (· = r) do
      ScopedRewriting.note (.cacheSize (← request .cacheSize))
      return r) :
    J.Holds (o.Yields π source) (process π fuel o path source) := by
  unfold ScopedRewriting.process
  cases htext : String.fromUTF8? source with
  | none => exact J.pure (.fail (by simp [Form.ofSource, htext]))
  | some text =>
      refine J.bind (J.note _ (by simp [Event.level])) fun _ _ => ?_
      cases hf : Form.parse text with
      | error e => exact J.pure (.fail (by simp [Form.ofSource, htext, hf, Except.mapError]))
      | ok f =>
          have hsource : Form.ofSource source = .ok f :=
            Form.ofSource_eq_ok_iff.mpr ⟨text, htext, hf⟩
          dsimp only
          split
          · next hshare => exact J.pure (.print hsource (by simp [Options.Prints, hshare]))
          · next hshare =>
              refine J.bind (Judgement.share f) ?_
              rintro _ rfl
              split
              · next heval =>
                  exact J.pure (.print hsource (by simp [Options.Prints, hshare, heval]))
              · next heval =>
                  refine J.bind (J.note _ (by simp [Event.level])) fun _ _ =>
                    J.bind (h _ _) fun u hu => J.imp (hsize (.ok (o.render u))) ?_
                  rintro _ rfl
                  refine .print hsource ?_
                  rw [Options.Prints, if_neg hshare, if_neg heval]
                  exact ⟨u, hu, rfl⟩

theorem obeys_process (fuel : Nat) (o : Options) (path : String) (source : ByteArray) :
    Job.Obeys (.truthful π (fun _ => True) True) (o.Yields π source)
      (process π fuel o path source) := by
  let J := (Contract.truthful π (fun _ => True) True).judgement
    (Contract.truthful_lenient fun _ _ => trivial) trivial
  refine Judgement.process (J := J) (fun s t => obeys_call fuel (.normalize s t)) fun r => ?_
  exact .ask trivial fun _ _ => .ask trivial fun _ _ => .done rfl

theorem steady_process {fuel : Nat} {r : Except Failure String}
    (h : Job.forgetful (process π fuel o path source) = some r) :
    Job.Obeys (.truthful π (fun _ => True) False) (· = r) (process π fuel o path source) := by
  let J := (Contract.truthful π (fun _ => True) False).steady
    (Contract.truthful_lenient fun _ _ => trivial)
  have hJ : J.Holds (o.Yields π source) (process π fuel o path source) := by
    refine Judgement.process (fun s t => steady_normalize π fuel s t) fun r => ?_
    -- How many normal forms are known depends on other jobs, but is noted only.
    rintro _ ⟨⟩
    exact ⟨rfl, .ask trivial fun _ _ => .ask trivial fun _ _ => .done rfl⟩
  exact (hJ r h).2

@[simp]
theorem Job.forgetful_request (q : Request) :
    (request q : Job q.Reply).forgetful = some q.forgetfulReply := rfl

theorem forgetful_process {r : Except Failure String} (h : o.Yields π source r) (path : String) :
    ∃ fuel, Job.forgetful (process π fuel o path source) = some r := by
  unfold process
  cases htext : String.fromUTF8? source with
  | none =>
      have hsource : Form.ofSource source = .error .notText := by simp [Form.ofSource, htext]
      rw [Options.yields_iff_of_error hsource] at h
      exact ⟨0, congrArg some h.symm⟩
  | some text =>
      simp only [Job.forgetful_bind, Job.forgetful_note, Option.bind_some]
      cases hf : Form.parse text with
      | error e =>
          have hsource : Form.ofSource source = .error (.read e) := by
            simp [Form.ofSource, htext, hf, Except.mapError]
          rw [Options.yields_iff_of_error hsource] at h
          exact ⟨0, congrArg some h.symm⟩
      | ok f =>
          have hsource : Form.ofSource source = .ok f :=
            Form.ofSource_eq_ok_iff.mpr ⟨text, htext, hf⟩
          rw [Options.yields_iff_of_ok hsource] at h
          obtain ⟨out, hout, rfl⟩ := h
          unfold Options.Prints at hout
          by_cases hshare : o.omits .share
          · exact ⟨0, by simp_all⟩
          by_cases heval : o.omits .eval
          · exact ⟨0, by simp_all [Form.share, Job.forgetful_bind]⟩
          · simp only [hshare, heval] at hout
            obtain ⟨u, ⟨fuel, hu⟩, rfl⟩ := hout
            exact ⟨fuel, by simp_all [Form.share, evaluate, Job.forgetful_bind]⟩

theorem Engine.Filled.processes_iff {engine : Engine} (h : engine.Filled π)
    {r : Except Failure String} : engine.Processes π o path source r ↔ o.Yields π source r := by
  constructor
  · rintro ⟨fuel, hr⟩
    have hupholds := upholds_truthful π (fun _ => True) True engine.cache
    exact (obeys_process fuel o path source).run_result hupholds ⟨h.sound, .refl _⟩ hr
  · intro hr
    obtain ⟨fuel, hr⟩ := forgetful_process hr path
    have hupholds := upholds_truthful π (fun _ => True) False engine.cache
    obtain ⟨_, rfl, hrun⟩ := (steady_process hr).run_isSome id hupholds ⟨h.sound, .refl _⟩
    exact ⟨fuel, hrun⟩

end ScopedRewriting
