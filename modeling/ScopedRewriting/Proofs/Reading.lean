import ScopedRewriting.Source.Descent
import ScopedRewriting.Source.Grammar

/-!
# Reading forms

A text is read as a form if and only if its significant tokens spell the form. Any other text is
refused for the fault that a scan finds which does no more than count the open groups. Recursive
descent reads the same (`parse_classification`).
-/

namespace ScopedRewriting

/-! ## What a reader has taken -/

namespace Reader

/-- The tokens that open the groups and spell their elements so far. -/
def opened : List (List Form) → List Token
  | [] => []
  | group :: groups => opened groups ++ .openBracket :: Form.tokensAll group.reverse

/-- The quote that waits for its word, if any. -/
def pending (r : Reader) : List Token :=
  if r.quoting then [.quote] else []

/-- The progress is due to the given tokens. -/
def Progress.SpelledBy (tokens : List Token) : Progress → Prop
  | .done (.ok f) => f.tokens = tokens
  | .done (.error _) => True
  | .more r => opened r.groups ++ r.pending = tokens

theorem spelledBy_place (f : Form) (groups : List (List Form)) :
    (place f groups).SpelledBy (opened groups ++ f.tokens) := by
  cases groups with
  | nil => rfl
  | cons group groups =>
      simp [place, Progress.SpelledBy, opened, pending, Form.tokensAll_eq_flatMap]

theorem spelledBy_feed (r : Reader) {token : Token} (h : token ≠ .space) :
    (r.feed token).SpelledBy (opened r.groups ++ r.pending ++ [token]) := by
  obtain ⟨groups, quoting⟩ := r
  cases token with
  | space => exact absurd rfl h
  | unclosedComment => trivial
  | word w =>
      cases quoting with
      | true => simpa [feed, pending, Form.tokens] using spelledBy_place (.quoted w) groups
      | false => simpa [feed, pending, Form.tokens] using spelledBy_place (.word w) groups
  | openBracket =>
      cases quoting <;> simp [feed, Progress.SpelledBy, opened, pending, Form.tokensAll]
  | closeBracket =>
      cases quoting with
      | true => trivial
      | false =>
          cases groups with
          | nil => trivial
          | cons group groups =>
              simpa [feed, pending, opened, Form.tokens] using
                spelledBy_place (.group group.reverse) groups
  | quote => cases quoting <;> simp [feed, Progress.SpelledBy, pending]
  | closeParen => cases quoting <;> cases groups <;> trivial

theorem finish_ne_some (r : Reader) (f : Form) : r.finish ≠ .ok (some f) := by
  intro h
  unfold finish at h
  split at h
  · cases h
  · split at h <;> cases h

theorem tokens_of_run {r : Reader} {tokens rest : List Token} {f : Form} (h : .space ∉ tokens)
    (hr : r.run tokens = (.ok (some f), rest)) :
    opened r.groups ++ r.pending ++ tokens = f.tokens ++ rest := by
  induction tokens generalizing r with
  | nil => exact absurd (congrArg Prod.fst hr) (r.finish_ne_some f)
  | cons token tokens ih =>
      obtain ⟨ht, hts⟩ := List.ne_and_not_mem_of_not_mem_cons h
      have hfeed := spelledBy_feed r ht.symm
      rw [run] at hr
      split at hr
      · next result heq =>
          rw [heq] at hfeed
          cases result with
          | error e => cases hr
          | ok g =>
              cases hr
              rw [show f.tokens = _ from hfeed]
              simp
      · next r' heq =>
          rw [heq] at hfeed
          rw [← ih hts hr, show opened r'.groups ++ r'.pending = _ from hfeed]
          simp

/-! ## Reading what spells a form -/

/-- Goes on with the tokens that are left. -/
def Progress.resume : Progress → List Token → Except ReadError (Option Form) × List Token
  | .done result, tokens => (result.map some, tokens)
  | .more r, tokens => r.run tokens

theorem run_cons (r : Reader) (token : Token) (tokens : List Token) :
    r.run (token :: tokens) = (r.feed token).resume tokens := by
  rw [run]
  cases r.feed token <;> rfl

mutual
theorem run_tokens : (f : Form) → (groups : List (List Form)) → (rest : List Token) →
    run ⟨groups, false⟩ (f.tokens ++ rest) = (place f groups).resume rest
  | .word w, groups, rest => run_cons _ _ _
  | .quoted w, groups, rest => run_cons ⟨groups, true⟩ _ _
  | .group fs, groups, rest => by
      have hfs := run_tokensAll fs [] groups (.closeBracket :: rest)
      simp only [Form.tokens, List.cons_append, List.append_assoc, List.nil_append]
      rw [run_cons]
      refine hfs.trans ?_
      simp [run_cons, feed]

theorem run_tokensAll : (fs : List Form) → (group : List Form) → (groups : List (List Form)) →
    (rest : List Token) → run ⟨group :: groups, false⟩ (Form.tokensAll fs ++ rest) =
      run ⟨(fs.reverse ++ group) :: groups, false⟩ rest
  | [], _, _, _ => rfl
  | f :: fs, group, groups, rest => by
      rw [Form.tokensAll, List.append_assoc, run_tokens f]
      refine (run_tokensAll fs (f :: group) groups rest).trans ?_
      simp
end

end Reader

theorem Form.read_tokens (f : Form) (rest : List Token) :
    read (f.tokens ++ rest) = (.ok (some f), rest) :=
  Reader.run_tokens f [] rest

theorem Form.tokens_injective : Function.Injective Form.tokens := by
  intro f g h
  have hf := read_tokens f []
  rw [h, read_tokens g []] at hf
  cases hf
  rfl

/-! ## Recursive descent

The descent reads as many items as there are tokens at most, so it does not stop short.
-/

namespace Reader

/-- Goes on inside of open groups when an item was read there. -/
def resumeItem (groups : List (List Form)) :
    Except ReadError (Option Form.Item) × List Token → Except ReadError (Option Form) × List Token
  | (.error e, rest) => (.error e, rest)
  | (.ok none, rest) => (finish ⟨groups, false⟩, rest)
  | (.ok (some .close), rest) => (feed ⟨groups, false⟩ .closeBracket).resume rest
  | (.ok (some (.form f)), rest) => (place f groups).resume rest

/-- Goes on inside of open groups when a form was read there. -/
def resumeForm (groups : List (List Form)) :
    Except ReadError Form × List Token → Except ReadError (Option Form) × List Token
  | (.error e, rest) => (.error e, rest)
  | (.ok f, rest) => (place f groups).resume rest

theorem run_quoting (tokens : List Token) :
    ∃ r rest, Form.quotedWord tokens = (r, rest) ∧ rest.length ≤ tokens.length ∧
      ∀ groups, run ⟨groups, true⟩ tokens = resumeForm groups (r, rest) := by
  induction tokens with
  | nil => exact ⟨_, _, rfl, Nat.le_refl _, fun _ => rfl⟩
  | cons token tokens ih =>
      cases token with
      | space =>
          obtain ⟨r, rest, hr, hrest, hrun⟩ := ih
          exact ⟨r, rest, hr, Nat.le_succ_of_le hrest, hrun⟩
      | _ => exact ⟨_, _, rfl, Nat.le_succ _, fun _ => run_cons _ _ _⟩

/-- The descent ends with an item, and a reader goes on as if it had read that. -/
def ReadsItem (n : Nat) (tokens : List Token) : Prop :=
  ∃ r rest, Form.item (Form.elements n []) tokens = some (r, rest) ∧
    (r = .ok none ∧ rest = [] ∨ rest.length < tokens.length) ∧
    ∀ groups, run ⟨groups, false⟩ tokens = resumeItem groups (r, rest)

/-- The descent ends with the elements of a group, and a reader goes on as if it had read that. -/
def ReadsElements (n : Nat) (tokens : List Token) : Prop :=
  ∀ group, ∃ r rest, Form.elements n group tokens = some (r, rest) ∧
    rest.length ≤ tokens.length ∧
    ∀ groups, run ⟨group :: groups, false⟩ tokens = resumeForm groups (r.map .group, rest)

theorem readsItem {n : Nat} {tokens : List Token}
    (h : ∀ ts : List Token, ts.length < tokens.length → ReadsElements n ts) :
    ReadsItem n tokens := by
  induction tokens with
  | nil => exact ⟨.ok none, [], rfl, .inl ⟨rfl, rfl⟩, fun _ => rfl⟩
  | cons token tokens ih =>
      have hlt : tokens.length < (token :: tokens).length := Nat.lt_succ_self _
      cases token with
      | space =>
          obtain ⟨r, rest, hr, hrest, hrun⟩ := ih fun ts hts => h ts (Nat.lt_trans hts hlt)
          exact ⟨r, rest, hr, hrest.imp_right (Nat.lt_trans · hlt), hrun⟩
      | word w => exact ⟨_, _, rfl, .inr hlt, fun _ => run_cons _ _ _⟩
      | quote =>
          obtain ⟨r, rest, hr, hrest, hrun⟩ := run_quoting tokens
          refine ⟨r.map (some ∘ .form), rest, ?_, .inr (Nat.lt_of_le_of_lt hrest hlt),
            fun groups => ?_⟩
          · rw [Form.item, hr]
            cases r <;> rfl
          · refine (hrun groups).trans ?_
            cases r <;> rfl
      | openBracket =>
          obtain ⟨r, rest, hr, hrest, hrun⟩ := h tokens hlt []
          refine ⟨r.map (some ∘ .form ∘ .group), rest, ?_, .inr (Nat.lt_of_le_of_lt hrest hlt),
            fun groups => ?_⟩
          · rw [Form.item, hr]
            cases r <;> rfl
          · refine (hrun groups).trans ?_
            cases r <;> rfl
      | closeBracket => exact ⟨_, _, rfl, .inr hlt, fun _ => run_cons _ _ _⟩
      | closeParen =>
          refine ⟨_, _, rfl, .inr hlt, fun groups => ?_⟩
          cases groups <;> rfl
      | unclosedComment => exact ⟨_, _, rfl, .inr hlt, fun _ => rfl⟩

theorem readsElements {n : Nat} {tokens : List Token} (hn : tokens.length < n) :
    ReadsElements n tokens := by
  induction n generalizing tokens with
  | zero => exact absurd hn (Nat.not_lt_zero _)
  | succ n ih =>
      have hitem : ReadsItem n tokens :=
        readsItem fun ts hts => ih (Nat.lt_of_lt_of_le hts (Nat.le_of_lt_succ hn))
      obtain ⟨r, rest, hr, hrest, hrun⟩ := hitem
      have hle : rest.length ≤ tokens.length := by
        rcases hrest with ⟨_, rfl⟩ | hlt
        · exact Nat.zero_le _
        · exact Nat.le_of_lt hlt
      intro group
      rw [Form.elements, hr]
      rcases r with e | _ | f | _
      · exact ⟨.error e, rest, rfl, hle, fun groups => hrun (group :: groups)⟩
      · exact ⟨.error .unclosedBracket, rest, rfl, hle, fun groups => hrun (group :: groups)⟩
      · have hlt : rest.length < tokens.length := hrest.resolve_left fun hnone => by cases hnone.1
        have hrest : ReadsElements n rest := ih (by omega)
        obtain ⟨r, rest', hr', hle', hrun'⟩ := hrest (f :: group)
        refine ⟨r, rest', hr', Nat.le_trans hle' hle, fun groups => ?_⟩
        exact (hrun (group :: groups)).trans (hrun' groups)
      · exact ⟨.ok group.reverse, rest, rfl, hle, fun groups => hrun (group :: groups)⟩

end Reader

/-- The recursive descent comes to its end, with what the reader reads. -/
theorem Form.descend_eq (tokens : List Token) : descend tokens = some (read tokens) := by
  have hitem : Reader.ReadsItem tokens.length tokens :=
    Reader.readsItem fun _ => Reader.readsElements
  obtain ⟨r, rest, hr, _, hrun⟩ := hitem
  rw [descend, hr, read, Reader.start, hrun []]
  rcases r with e | _ | f | _ <;> rfl

/-! ## The first fault -/

namespace Reader

/-- The first fault, once the progress was made. -/
def Progress.fault : Progress → List Token → Option ReadError
  | .done (.error e), _ => some e
  | .done (.ok _), tokens => faultBehind tokens
  | .more r, tokens => firstFault r.groups.length (r.pending ++ tokens)

/-- The fault that a reading has found if all tokens were to be read. -/
def verdict : Except ReadError (Option Form) × List Token → Option ReadError
  | (.error e, _) => some e
  | (.ok none, _) => some .expectedTerm
  | (.ok (some _), rest) => faultBehind rest

theorem firstFault_cons (r : Reader) {token : Token} (h : token ≠ .space) (tokens : List Token) :
    firstFault r.groups.length (r.pending ++ token :: tokens) = (r.feed token).fault tokens := by
  obtain ⟨groups, quoting⟩ := r
  cases token with
  | space => exact absurd rfl h
  | closeBracket =>
      -- the scan tells the outermost group from the groups inside of it
      cases quoting with
      | true => cases groups <;> rfl
      | false => rcases groups with _ | ⟨_, _ | _⟩ <;> rfl
  | _ => cases quoting <;> cases groups <;> rfl

theorem firstFault_nil (r : Reader) :
    firstFault r.groups.length (r.pending ++ []) = verdict (r.finish, []) := by
  obtain ⟨groups, quoting⟩ := r
  cases quoting <;> cases groups <;> rfl

/-- A reader fails where the scan does that only knows how many groups are open. -/
theorem firstFault_eq_verdict (r : Reader) {tokens : List Token} (h : .space ∉ tokens) :
    firstFault r.groups.length (r.pending ++ tokens) = verdict (r.run tokens) := by
  induction tokens generalizing r with
  | nil => exact r.firstFault_nil
  | cons token tokens ih =>
      obtain ⟨ht, hts⟩ := List.ne_and_not_mem_of_not_mem_cons h
      rw [r.firstFault_cons ht.symm, run_cons]
      cases r.feed token with
      | done result => cases result <;> rfl
      | more r' => exact ih r' hts

end Reader

/-! ## Texts -/

theorem Token.space_not_mem_significant (text : String) : space ∉ significant text := by
  simp [significant]

theorem faultBehind_eq_none_iff {tokens : List Token} :
    faultBehind tokens = none ↔ tokens = [] := by
  unfold faultBehind
  split <;> simp

namespace Form

theorem checkEnd_eq {tokens : List Token} (h : .space ∉ tokens) :
    checkEnd tokens = match faultBehind tokens with
      | none => .ok ()
      | some e => .error e := by
  cases tokens with
  | nil => rfl
  | cons token tokens =>
      cases token with
      | space => simp at h
      | _ => rfl

theorem significant_eq_of_read {text : String} {f : Form} {rest : List Token}
    (h : read (Token.significant text) = (.ok (some f), rest)) :
    Token.significant text = f.tokens ++ rest :=
  Reader.tokens_of_run (Token.space_not_mem_significant text) h

theorem parse_of_read {text : String} {f : Form} {rest : List Token}
    (h : read (Token.significant text) = (.ok (some f), rest)) :
    parse text = match faultBehind rest with
      | none => .ok f
      | some e => .error e := by
  have hrest : .space ∉ rest := by
    intro hm
    refine Token.space_not_mem_significant text ?_
    simp [significant_eq_of_read h, hm]
  simp only [parse, h, checkEnd_eq hrest]
  cases faultBehind rest <;> rfl

theorem parse_eq_ok_iff {text : String} {f : Form} :
    parse text = .ok f ↔ Token.significant text = f.tokens := by
  constructor
  · intro h
    cases hr : read (Token.significant text) with
    | mk result rest =>
        rcases result with e | _ | g
        · simp [parse, hr] at h
        · simp [parse, hr] at h
        · rw [parse_of_read hr] at h
          split at h
          · next hnone =>
              cases h
              rw [significant_eq_of_read hr, faultBehind_eq_none_iff.mp hnone, List.append_nil]
          · cases h
  · intro h
    have hr := read_tokens f []
    rw [List.append_nil, ← h] at hr
    exact parse_of_read hr

theorem parse_eq_error_iff {text : String} {e : ReadError} :
    parse text = .error e ↔ firstFault 0 (Token.significant text) = some e := by
  have hfault : firstFault 0 (Token.significant text) =
      Reader.verdict (read (Token.significant text)) :=
    Reader.start.firstFault_eq_verdict (Token.space_not_mem_significant text)
  rw [hfault]
  cases hr : read (Token.significant text) with
  | mk result rest =>
      rcases result with e' | _ | f
      · simp [parse, hr, Reader.verdict]
      · simp [parse, hr, Reader.verdict]
      · rw [parse_of_read hr, Reader.verdict]
        cases faultBehind rest <;> simp

end Form

/-- A text is a form exactly if its significant tokens spell the form, and these spell no other
form. Any other text is refused with the fault that the scan finds first. It makes no difference
whether the tokens are read by recursive descent. -/
theorem parse_classification (text : String) :
    (∀ f : Form, Form.parse text = .ok f ↔ Token.significant text = f.tokens) ∧
    Function.Injective Form.tokens ∧
    (∀ e : ReadError, Form.parse text = .error e ↔
      firstFault 0 (Token.significant text) = some e) ∧
    ∀ tokens : List Token, Form.descend tokens = some (Form.read tokens) :=
  ⟨fun _ => Form.parse_eq_ok_iff, Form.tokens_injective, fun _ => Form.parse_eq_error_iff,
    Form.descend_eq⟩

end ScopedRewriting
