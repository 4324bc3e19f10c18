import ScopedRewriting.Program.Run
import ScopedRewriting.Program.Whole
import ScopedRewriting.Proofs.Processing

/-!
# Files side by side

A job that keeps to a contract has the same result whatever jobs it shares an engine with, as long
as each of them keeps to the contract, too: every request that is served keeps what the contract
asks of the engine. So files are processed side by side, under every schedule, with the results that
they have one after the other, and each on its own (`parallel_eq_sequential`).
-/

namespace ScopedRewriting

open Filter

variable {π : Policy} {α : Type} {c : Contract} {I : Engine → Prop}

/-! ## Jobs that share an engine -/

/-- The jobs keep to the contract, and have the given results. -/
def Pool.Obeys (c : Contract) (jobs : Pool α) (results : List α) : Prop :=
  List.Forall₂ (fun j a => j.Obeys c (· = a)) jobs results

namespace Pool

variable {jobs : Pool α} {results : List α} {engine : Engine}

/-- Serving one request keeps what the contract asks of the engine, and no job gets another
result. -/
theorem Obeys.advance (h : jobs.Obeys c results) (hI : Job.Upholds c I) (he : I engine) (i : Nat) :
    (advance engine i jobs).1.Obeys c results ∧ I (advance engine i jobs).2 := by
  induction h generalizing i with
  | nil =>
      rw [Pool.advance]
      exact ⟨.nil, he⟩
  | cons hj _ ih =>
      cases hj with
      | done ha =>
          simp only [Pool.advance, Job.isWaiting]
          exact ⟨.cons (.done ha) (ih i).1, (ih i).2⟩
      | exhausted ht =>
          simp only [Pool.advance, Job.isWaiting]
          exact ⟨.cons (.exhausted ht) (ih i).1, (ih i).2⟩
      | @ask q next hq hnext =>
          cases i with
          | zero =>
              obtain ⟨hr, hs⟩ := hI engine q he hq
              exact ⟨.cons (hnext _ hr) ‹_›, hs⟩
          | succ i => exact ⟨.cons (.ask hq hnext) (ih i).1, (ih i).2⟩

theorem Obeys.results_eq (h : jobs.Obeys c results) (ht : ¬ c.tires) (hw : jobs.waiting = 0) :
    jobs.map Job.result? = results.map some := by
  induction h with
  | nil => rfl
  | cons hj _ ih =>
      cases hj with
      | done ha =>
          rw [List.map_cons, List.map_cons, ih hw, ← ha]
          rfl
      | exhausted ht' => exact absurd ht' ht
      | ask _ _ => simp [waiting, Job.isWaiting] at hw

/-- Jobs that keep to a contract have their results under every schedule. -/
theorem Obeys.run (h : jobs.Obeys c results) (ht : ¬ c.tires) (hI : Job.Upholds c I)
    (he : I engine) (schedule : Nat → Nat) (n : Nat) :
    (Pool.run schedule n jobs engine).1 = results.map some := by
  induction n, jobs, engine using Pool.run.induct schedule with
  | case1 n jobs engine hw =>
      rw [Pool.run, dif_pos hw]
      exact h.results_eq ht hw
  | case2 n jobs engine hw i ih =>
      rw [Pool.run, dif_neg hw]
      obtain ⟨hjobs, hengine⟩ := h.advance hI he i
      exact ih hjobs hengine

end Pool

/-! ## Printing results -/

/-- All texts before the first failure are printed, then the failure. -/
inductive Outcome.Prints : List (Except Failure String) → Outcome → Prop
  | success (texts : List String) : Prints (texts.map .ok) (.success (String.join texts))
  | failure (texts : List String) (f : Failure) (later : List (Except Failure String)) :
      Prints (texts.map .ok ++ .error f :: later) (.failure (String.join texts) f)

variable {results : List (Except Failure String)}

theorem Outcome.exists_prints (results : List (Except Failure String)) :
    ∃ outcome, Outcome.Prints results outcome := by
  induction results with
  | nil => exact ⟨_, .success []⟩
  | cons r results ih =>
      cases r with
      | error f => exact ⟨_, .failure [] f results⟩
      | ok text =>
          obtain ⟨_, h⟩ := ih
          cases h with
          | success texts => exact ⟨_, .success (text :: texts)⟩
          | failure texts f later => exact ⟨_, .failure (text :: texts) f later⟩

theorem printResults_texts (printed : String) (texts : List String)
    (rest : List (Except Failure String)) :
    printResults printed ((texts.map Except.ok ++ rest).map some) =
      printResults (printed ++ String.join texts) (rest.map some) := by
  induction texts generalizing printed with
  | nil => simp
  | cons text texts ih =>
      refine (ih (printed ++ text)).trans ?_
      simp [String.append_assoc]

theorem Outcome.Prints.printResults {outcome : Outcome} (h : Outcome.Prints results outcome) :
    printResults "" (results.map some) = some outcome := by
  cases h with
  | success texts =>
      have := printResults_texts "" texts []
      simpa [ScopedRewriting.printResults] using this
  | failure texts f later =>
      rw [printResults_texts]
      simp [ScopedRewriting.printResults]

theorem runInTurn_eq {jobs : List SourceJob} {engine : Engine} (h : Pool.Obeys c jobs results)
    (ht : ¬ c.tires) (hI : Job.Upholds c I) (he : I engine) (printed : String) :
    runInTurn printed jobs engine = printResults printed (results.map some) := by
  induction h generalizing engine printed with
  | nil => rfl
  | cons hj _ ih =>
      obtain ⟨r, rfl, hr⟩ := hj.run_isSome ht hI he
      have hkept := hj.run_keeps hI he
      rw [runInTurn]
      generalize hrun : Job.run _ engine = run at hr hkept
      obtain ⟨_, engine⟩ := run
      cases hr
      cases r with
      | error f => rfl
      | ok text => exact ih hkept (printed ++ text)

/-! ## Processing a file -/

/-- A program in the file comes to its end. -/
def Contents.Ends (π : Policy) (contents : Contents) : Prop :=
  ∀ source text f, contents = .ok source → String.fromUTF8? source = some text →
    Form.parse text = .ok f → Normalizing π (.base π) (.ofForm f)

variable {o : Options} {path : String} {contents : Contents}

theorem exists_forgetful_processFile (o : Options) (path : String) (h : contents.Ends π) :
    ∃ n r, Job.forgetful (processFile π n o path contents) = some r := by
  cases contents with
  | error e => exact ⟨0, _, rfl⟩
  | ok source =>
      obtain ⟨r, hr⟩ : ∃ r, o.Yields π source r := by
        cases hsource : Form.ofSource source with
        | error e => exact ⟨_, .fail hsource⟩
        | ok f =>
            obtain ⟨text, htext, hf⟩ := Form.ofSource_eq_ok_iff.mp hsource
            obtain ⟨out, hout⟩ := o.exists_prints (h source text f rfl htext hf)
            exact ⟨_, .print hsource hout⟩
      obtain ⟨n, hn⟩ := forgetful_process hr path
      exact ⟨n, r, hn⟩

theorem steady_processFile {n : Nat} {r : Except Failure String}
    (h : Job.forgetful (processFile π n o path contents) = some r) :
    Job.Obeys (.truthful π (fun _ => True) False) (· = r) (processFile π n o path contents) := by
  cases contents with
  | error e =>
      cases h
      exact .done rfl
  | ok source => exact steady_process h

theorem exists_results {read : String → Contents} {paths : List String}
    (h : ∀ path ∈ paths, (read path).Ends π) : ∃ results, ∀ᶠ n in atTop,
      List.Forall₂ (fun path r => Job.forgetful (processFile π n o path (read path)) = some r)
        paths results := by
  induction paths with
  | nil => exact ⟨[], .of_forall fun _ => .nil⟩
  | cons path paths ih =>
      obtain ⟨hpath, hpaths⟩ := List.forall_mem_cons.mp h
      obtain ⟨n, r, hr⟩ := exists_forgetful_processFile o path hpath
      obtain ⟨results, hresults⟩ := ih hpaths
      refine ⟨r :: results, ?_⟩
      filter_upwards [hresults, eventually_ge_atTop n] with k hk hn
      exact .cons ((Job.approximation.processFile hn path _).forgetful_eq hr) hk

/-! ## Reading files -/

/-- What a path leads to, where a dash stands for the standard input. -/
def lead (find : String → Except FileError Node) (path : String) : Except FileError Node :=
  if isInputPath path then .ok .input else find path

def leadsToInput (find : String → Except FileError Node) (path : String) : Bool :=
  match lead find path with
  | .ok .input => true
  | _ => false

/-- What is read from a path if no other path leads to the standard input. -/
def contentsOf (find : String → Except FileError Node) (input : ByteArray) (path : String) :
    Contents :=
  (lead find path).map (Node.bytes input)

variable {find : String → Except FileError Node}

theorem fetch_cons (input : ByteArray) (path : String) (paths : List String) :
    fetch find input (path :: paths) =
      match lead find path with
      | .error e => (path, .error e) :: fetch find input paths
      | .ok (.file bytes) => (path, .ok bytes) :: fetch find input paths
      | .ok .input => (path, .ok input) :: fetch find .empty paths := by
  rw [fetch, readFiles, List.mapM_cons, lead]
  simp only [FileAccess.read, FileAccess.finding]
  by_cases hinput : isInputPath path
  · rw [if_pos hinput, if_pos hinput]
    rfl
  · rw [if_neg hinput, if_neg hinput]
    cases find path with
    | error e => rfl
    | ok node => cases node <;> rfl

/-- The program runs on the contents of the files that its arguments name. -/
theorem runProgram_finding (π : Policy) (fuel : Nat) (args : List String) (input : ByteArray) :
    ((runProgram π fuel args (.finding find)).run input).1 =
      match Options.ofArguments args with
      | .error issue => some issue.outcome
      | .ok o => runFiles π fuel o (fetch find input o.files) := by
  rw [runProgram]
  cases Options.ofArguments args <;> rfl

/-- What is on the standard input matters only if a path leads there. -/
theorem fetch_eq_map {paths : List String} (h : paths.countP (leadsToInput find) ≤ 1)
    {input input' : ByteArray} (hinput : paths.countP (leadsToInput find) = 0 ∨ input = input') :
    fetch find input paths = paths.map fun path => (path, contentsOf find input' path) := by
  induction paths generalizing input with
  | nil => rfl
  | cons path paths ih =>
      rw [fetch_cons, List.map_cons, contentsOf]
      rw [List.countP_cons, leadsToInput] at h hinput
      cases hlead : lead find path with
      | error e =>
          simp only [hlead] at h hinput
          exact congrArg ((path, .error e) :: ·) (ih h hinput)
      | ok node =>
          cases node with
          | file bytes =>
              simp only [hlead] at h hinput
              exact congrArg ((path, .ok bytes) :: ·) (ih h hinput)
          | input =>
              simp only [hlead, if_true] at h hinput
              obtain rfl := hinput.resolve_left (Nat.succ_ne_zero _)
              exact congrArg ((path, .ok input) :: ·) (ih (by omega) (.inl (by omega)))

def sourceJobs (π : Policy) (fuel : Nat) (o : Options) (files : List (String × Contents)) :
    List SourceJob :=
  files.map fun (path, contents) => Part.whole (processFile π fuel o path contents)

theorem obeys_sourceJobs {n : Nat} {read : String → Contents} {paths : List String}
    (h : List.Forall₂ (fun path r => Job.forgetful (processFile π n o path (read path)) = some r)
      paths results) :
    Pool.Obeys (.truthful π (fun _ => True) False)
      (sourceJobs π n o (paths.map fun path => (path, read path))) results := by
  simp only [sourceJobs, List.map_map, Pool.Obeys, List.forall₂_map_left_iff, Function.comp_def,
    whole_processFile]
  exact h.imp fun path r hr => steady_processFile hr

/-- As long as no two paths lead to the standard input and all programs come to their ends, files
are processed one after the other and side by side with the same outcome, under every schedule and
whatever the engine knows already. It is that of printing what each file yields on its own. -/
theorem parallel_eq_sequential (o : Options) (find : String → Except FileError Node)
    (input : ByteArray) (hinput : o.files.countP (leadsToInput find) ≤ 1)
    (hends : ∀ path ∈ o.files, (contentsOf find input path).Ends π)
    {engine : Engine} (he : engine.Filled π) :
    ∃ results outcome, Outcome.Prints results outcome ∧ ∃ enough, ∀ fuel, enough ≤ fuel →
      List.Forall₂ (fun path r => (Job.run
        (processFile π fuel o path (contentsOf find input path)) {}).1 = some r) o.files results ∧
      runInTurn "" (sourceJobs π fuel o (fetch find input o.files)) engine = some outcome ∧
      (∀ schedule, runTogether schedule (sourceJobs π fuel o (fetch find input o.files)) engine =
        some outcome) ∧
      runFiles π fuel o (fetch find input o.files) = some outcome := by
  obtain ⟨results, hresults⟩ := exists_results (o := o) hends
  obtain ⟨enough, henough⟩ := eventually_atTop.mp hresults
  obtain ⟨outcome, hprints⟩ := Outcome.exists_prints results
  refine ⟨results, outcome, hprints, enough, fun fuel hfuel => ?_⟩
  have hforgetful := henough fuel hfuel
  have hjobs := obeys_sourceJobs hforgetful
  rw [← fetch_eq_map hinput (.inr rfl)] at hjobs
  have hupholds := upholds_truthful π (fun _ => True) False .empty
  have hturn {engine : Engine} (he : engine.Filled π) :
      runInTurn "" (sourceJobs π fuel o (fetch find input o.files)) engine = some outcome := by
    rw [runInTurn_eq hjobs id hupholds ⟨he.sound, Cache.within_empty _⟩]
    exact hprints.printResults
  have htogether {engine : Engine} (he : engine.Filled π) (schedule : Nat → Nat) :
      runTogether schedule (sourceJobs π fuel o (fetch find input o.files)) engine =
        some outcome := by
    rw [runTogether, hjobs.run id hupholds ⟨he.sound, Cache.within_empty _⟩]
    exact hprints.printResults
  refine ⟨?_, hturn he, htogether he, ?_⟩
  · refine hforgetful.imp fun path r hr => ?_
    obtain ⟨_, rfl, hrun⟩ := (steady_processFile hr).run_isSome id hupholds
      ⟨Engine.Filled.fresh.sound, Cache.within_empty _⟩
    exact hrun
  · rw [runFiles]
    split
    · exact hturn .fresh
    · exact htogether .fresh _

private def sampleOptions : Options := { files := ["a", "-"] }

/-- Only the file `a` is there. -/
private def sampleFind (path : String) : Except FileError Node :=
  if path = "a" then .ok (.file "[A -> B A]".toUTF8) else .error .notFound

/-- What is on the standard input cannot be read as a term. -/
theorem parallel_eq_sequential_failing :
    sampleOptions.files.countP (leadsToInput sampleFind) ≤ 1 ∧
    (∀ path ∈ sampleOptions.files, (contentsOf sampleFind "]".toUTF8 path).Ends .standard) ∧
    Engine.Filled .standard {} ∧ ∃ enough, ∀ fuel, enough ≤ fuel → ∀ schedule,
      runTogether schedule (sourceJobs .standard fuel sampleOptions
        (fetch sampleFind "]".toUTF8 sampleOptions.files)) {} =
      runInTurn "" (sourceJobs .standard fuel sampleOptions
        (fetch sampleFind "]".toUTF8 sampleOptions.files)) {} := by
  have hinput : sampleOptions.files.countP (leadsToInput sampleFind) ≤ 1 := by
    have hparts : "a".splitOn "/" = ["a"] := by
      rw [String.splitOn, if_neg (by decide), String.splitOnAux, if_neg (by decide +kernel),
        if_neg (by decide +kernel), String.splitOnAux, if_pos (by decide +kernel)]
      decide +kernel
    have ha : leadsToInput sampleFind "a" = false := by
      rw [leadsToInput, lead, isInputPath, hparts]
      decide +kernel
    rw [sampleOptions, List.countP_cons_of_neg (by simp [ha])]
    exact List.countP_le_length
  have hends (path : String) : (contentsOf sampleFind "]".toUTF8 path).Ends .standard := by
    have hread : (String.fromUTF8? "[A -> B A]".toUTF8).map (fun t => (Form.parse t).map .ofForm) =
        some (.ok (Term.Directive.toTerm ⟨.atom ⟨"A"⟩, .atom ⟨"B"⟩, .atom ⟨"A"⟩⟩)) := by
      decide +kernel
    have hfails : (String.fromUTF8? "]".toUTF8).map (fun t => (Form.parse t).map Term.ofForm) =
        some (.error .unmatchedBracket) := by decide +kernel
    intro source text f hsource htext hparse
    have hbytes : source = "[A -> B A]".toUTF8 ∨ source = "]".toUTF8 := by
      rw [contentsOf, lead, sampleFind] at hsource
      split at hsource
      · exact .inr (Except.ok.inj hsource).symm
      · split at hsource
        · exact .inl (Except.ok.inj hsource).symm
        · cases hsource
    rcases hbytes with rfl | rfl
    · rw [htext, Option.map_some, hparse] at hread
      rw [Except.ok.inj (Option.some.inj hread)]
      exact ⟨.atom ⟨"B"⟩, 5, by decide +kernel⟩
    · rw [htext, Option.map_some, hparse] at hfails
      cases hfails
  obtain ⟨_, _, _, enough, h⟩ := parallel_eq_sequential sampleOptions sampleFind "]".toUTF8 hinput
    (fun path _ => hends path) .fresh
  refine ⟨hinput, fun path _ => hends path, .fresh, enough, fun fuel hfuel schedule => ?_⟩
  obtain ⟨_, hturn, htogether, _⟩ := h fuel hfuel
  rw [htogether, hturn]

end ScopedRewriting
