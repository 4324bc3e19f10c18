import Mathlib.Data.List.DropRight
import ScopedRewriting.Proofs.Reading

/-!
# Readings one after the other

Forms are read one after the other from the same tokens. No reading takes more than the tokens of
its form and the space in front of and among them, and none that finds anything takes nothing
(`readings_lose_nothing`).
-/

namespace ScopedRewriting

namespace Form

/-- Reads `n` times, each time what the reading before has left; answers what is left at the end,
too. -/
def readTimes : Nat → List Token → List (Except ReadError (Option Form)) × List Token
  | 0, tokens => ([], tokens)
  | n + 1, tokens =>
      let (result, rest) := read tokens
      let (results, rest) := readTimes n rest
      (result :: results, rest)

end Form

variable {f : Form} {tokens rest more : List Token}

/-! ## Space -/

namespace Reader

/-- A reader that has found a form behind some of the tokens, space left aside, has taken the tokens
up to the last one of the form, whatever stands behind it. -/
theorem exists_taken {r : Reader}
    (h : r.run (tokens.filter (· != .space)) = (.ok (some f), more)) :
    ∃ taken behind, tokens = taken ++ behind ∧ behind.filter (· != .space) = more ∧
      (∃ last ∈ taken.getLast?, last ≠ .space) ∧
      ∀ rest, r.run (taken ++ rest) = (.ok (some f), rest) := by
  induction tokens generalizing r with
  | nil => exact absurd (congrArg Prod.fst h) (r.finish_ne_some f)
  | cons token tokens ih =>
      by_cases ht : token = .space
      · subst ht
        obtain ⟨taken, behind, rfl, hbehind, ⟨last, hlast, hne⟩, hrun⟩ := ih h
        exact ⟨.space :: taken, behind, rfl, hbehind, ⟨last, List.mem_getLast?_cons hlast, hne⟩,
          hrun⟩
      · rw [List.filter_cons_of_pos (by simpa using ht), run_cons] at h
        cases hfeed : r.feed token with
        | done result =>
            rw [hfeed] at h
            obtain ⟨hresult, hmore⟩ := Prod.mk.inj h
            refine ⟨[token], tokens, rfl, hmore, ⟨token, rfl, ht⟩, fun rest => ?_⟩
            rw [List.singleton_append, run_cons, hfeed, Progress.resume, hresult]
        | more r' =>
            rw [hfeed] at h
            obtain ⟨taken, behind, rfl, hbehind, ⟨last, hlast, hne⟩, hrun⟩ := ih h
            refine ⟨token :: taken, behind, rfl, hbehind,
              ⟨last, List.mem_getLast?_cons hlast, hne⟩, fun rest => ?_⟩
            rw [List.cons_append, run_cons, hfeed]
            exact hrun rest

theorem run_suffix (r : Reader) (tokens : List Token) : (r.run tokens).2 <:+ tokens := by
  induction tokens generalizing r with
  | nil => exact List.suffix_refl []
  | cons token tokens ih =>
      rw [run_cons]
      cases r.feed token with
      | done result => exact List.suffix_cons token tokens
      | more r' => exact (ih r').trans (List.suffix_cons token tokens)

theorem eq_nil_of_run {r : Reader} (h : r.run tokens = (.ok none, rest)) : rest = [] := by
  induction tokens generalizing r with
  | nil => exact (congrArg Prod.snd h).symm
  | cons token tokens ih =>
      rw [run_cons] at h
      cases hfeed : r.feed token with
      | done result =>
          rw [hfeed] at h
          rcases result with e | f <;> cases h
      | more r' =>
          rw [hfeed] at h
          exact ih h

end Reader

theorem rtakeWhile_append_of_last {α : Type} {p : α → Bool} {front : List α} {last : α}
    (hlast : last ∈ front.getLast?) (hp : p last = false) (behind : List α) :
    (front ++ behind).rtakeWhile p = behind.rtakeWhile p := by
  induction behind using List.reverseRecOn with
  | nil =>
      rw [List.append_nil, List.rtakeWhile_nil, List.rtakeWhile_eq_nil_iff]
      intro hne
      have heq : front.getLast hne = last :=
        Option.some.inj ((List.getLast?_eq_some_getLast hne).symm.trans hlast)
      simp [heq, hp]
  | append_singleton behind a ih =>
      rw [← List.append_assoc, List.rtakeWhile_concat, List.rtakeWhile_concat, ih]

namespace Form

/-! ## Forms with space among their tokens -/

theorem read_spaces (h : ∀ token ∈ tokens, token = .space) : read tokens = (.ok none, []) := by
  induction tokens with
  | nil => rfl
  | cons token tokens ih =>
      obtain ⟨rfl, htokens⟩ := List.forall_mem_cons.mp h
      exact ih htokens

theorem readTimes_spaced {fs : List Form} {stream : List Token}
    (h : stream.filter (· != .space) = tokensAll fs) (further : List Token) :
    readTimes fs.length (stream ++ further) =
      (fs.map fun f => .ok (some f), stream.rtakeWhile (· == .space) ++ further) := by
  induction fs generalizing stream with
  | nil =>
      have hspaces : stream.rtakeWhile (· == .space) = stream := by
        rw [List.rtakeWhile_eq_self_iff]
        intro token ht
        simpa using List.filter_eq_nil_iff.mp h token ht
      rw [hspaces]
      rfl
  | cons f fs ih =>
      have hread : read (stream.filter (· != .space)) = (.ok (some f), tokensAll fs) := by
        rw [h, tokensAll, read_tokens]
      obtain ⟨taken, behind, rfl, hbehind, ⟨last, hlast, hne⟩, hrun⟩ := Reader.exists_taken hread
      have hstep : read (taken ++ (behind ++ further)) = (.ok (some f), behind ++ further) :=
        hrun _
      rw [List.length_cons, List.append_assoc, readTimes, hstep,
        rtakeWhile_append_of_last hlast (by simpa using hne)]
      simp [ih hbehind]

/-! ## Any tokens -/

theorem exists_taken_of_read {result : Except ReadError (Option Form)}
    (h : read tokens = (result, rest)) (hne : result ≠ .ok none) :
    ∃ taken, taken ≠ [] ∧ taken ++ rest = tokens := by
  have hsuffix := Reader.start.run_suffix tokens
  rw [show Reader.start.run tokens = _ from h] at hsuffix
  obtain ⟨taken, rfl⟩ := hsuffix
  have hlt := length_read_lt h hne
  refine ⟨taken, ?_, rfl⟩
  rintro rfl
  exact Nat.lt_irrefl _ hlt

theorem length_readAll_le (tokens : List Token) : (readAll tokens).length ≤ tokens.length := by
  fun_induction readAll tokens with
  | case1 => exact Nat.zero_le _
  | case2 tokens f rest h ih => exact Nat.lt_of_le_of_lt ih (length_read_lt h (by simp))
  | case3 tokens e rest h ih => exact Nat.lt_of_le_of_lt ih (length_read_lt h (by simp))

/-- Reading all forms is reading until there is nothing left. -/
theorem readTimes_readAll (tokens : List Token) :
    ∃ rest, readTimes (readAll tokens).length tokens = ((readAll tokens).map (·.map some), rest) ∧
      read rest = (.ok none, []) := by
  fun_induction readAll tokens with
  | case1 tokens rest h => exact ⟨tokens, rfl, h.trans (by rw [Reader.eq_nil_of_run h])⟩
  | case2 tokens f rest h ih =>
      obtain ⟨last, htimes, hlast⟩ := ih
      refine ⟨last, ?_, hlast⟩
      simp only [List.length_cons, readTimes, h, htimes]
      rfl
  | case3 tokens e rest h ih =>
      obtain ⟨last, htimes, hlast⟩ := ih
      refine ⟨last, ?_, hlast⟩
      simp only [List.length_cons, readTimes, h, htimes]
      rfl

end Form

/-- From the tokens of some forms, with space anywhere, as many readings give these forms and leave
what stands behind the last token of the last one. Any reading that finds something takes a token,
and the readings of all forms and faults, which are no more than there are tokens, leave only space.
All this is read by recursive descent, too. -/
theorem readings_lose_nothing :
    (∀ (fs : List Form) (stream further : List Token),
      stream.filter (· != .space) = Form.tokensAll fs →
      let left := stream.rtakeWhile (· == .space) ++ further
      Form.readTimes fs.length (stream ++ further) = (fs.map fun f => .ok (some f), left) ∧
      ((∀ token ∈ further, token = .space) → Form.read left = (.ok none, []))) ∧
    (∀ tokens result rest, Form.read tokens = (result, rest) → result ≠ .ok none →
      ∃ taken, taken ≠ [] ∧ taken ++ rest = tokens) ∧
    (∀ tokens, ∃ n ≤ tokens.length, ∃ rest,
      Form.readTimes n tokens = ((Form.readAll tokens).map (·.map some), rest) ∧
      Form.read rest = (.ok none, [])) ∧
    ∀ tokens, Form.descend tokens = some (Form.read tokens) := by
  refine ⟨fun fs stream further h => ⟨Form.readTimes_spaced h further, fun hfurther => ?_⟩,
    fun _ _ _ => Form.exists_taken_of_read, fun tokens => ?_, Form.descend_eq⟩
  · refine Form.read_spaces fun token ht => ?_
    rcases List.mem_append.mp ht with ht | ht
    · have hspace := List.mem_rtakeWhile_imp ht
      exact beq_iff_eq.mp hspace
    · exact hfurther token ht
  · exact ⟨_, Form.length_readAll_le tokens, Form.readTimes_readAll tokens⟩

/-- Space also stands between a quote and its word, and between brackets. A fault inside of a group
takes what was read of the group. -/
theorem readings_lose_nothing_inside :
    let stream : List Token :=
      [.space, .quote, .space, .word "x", .openBracket, .space, .closeBracket, .space]
    stream.filter (· != .space) = Form.tokensAll [.quoted "x", .group []] ∧
    Form.readTimes 2 (stream ++ [.space]) =
      ([.ok (some (.quoted "x")), .ok (some (.group []))], [.space, .space]) ∧
    Form.read [.space, .space] = (.ok none, []) ∧
    Form.read [.openBracket, .quote, .closeBracket, .word "y"] =
      (.error .expectedWord, [.word "y"]) ∧
    ∃ taken, taken ≠ [] ∧
      taken ++ [.word "y"] = [.openBracket, .quote, .closeBracket, Token.word "y"] := by
  intro stream
  obtain ⟨hspaced, htaken, -⟩ := readings_lose_nothing
  have hstream : stream.filter (· != .space) = Form.tokensAll [.quoted "x", .group []] := rfl
  obtain ⟨htimes, hnone⟩ := hspaced _ stream [.space] hstream
  have hfault : Form.read [.openBracket, .quote, .closeBracket, .word "y"] =
      (.error .expectedWord, [.word "y"]) := rfl
  exact ⟨hstream, htimes, hnone (by simp), hfault, htaken _ _ _ hfault (by simp)⟩

end ScopedRewriting
