import Mathlib.Data.List.Basic
import ScopedRewriting.Source.Comment
import ScopedRewriting.Source.Layout

/-!
# Where comments end

A comment ends with the first parenthesis that leaves more closed than opened ones behind its begin
(`splitComment_eq_some_iff`). So it is the shortest balanced piece of the text
(`ClosesComment.shortestBalanced`), and counting from one parenthesis to the next finds the same
end (`passComments_eq`).
-/

namespace ScopedRewriting

variable {depth n : Nat} {c : Char} {cs ds body rest : List Char}

/-- The text closes the comments that are open around it, `depth` and one more, and goes on no
further. -/
inductive ClosesComment : Nat → List Char → Prop
  | done : ClosesComment 0 [')']
  | opening {depth : Nat} {body : List Char} : ClosesComment (depth + 1) body →
      ClosesComment depth ('(' :: body)
  | closing {depth : Nat} {body : List Char} : ClosesComment depth body →
      ClosesComment (depth + 1) (')' :: body)
  | plain {depth : Nat} {c : Char} {body : List Char} : isParen c = false →
      ClosesComment depth body → ClosesComment depth (c :: body)

/-! ## Cutting comments -/

@[simp]
theorem splitComment_opening (depth : Nat) (cs : List Char) :
    splitComment depth ('(' :: cs) =
      (splitComment (depth + 1) cs).map fun (body, rest) => ('(' :: body, rest) := rfl

@[simp]
theorem splitComment_closing (depth : Nat) (cs : List Char) :
    splitComment (depth + 1) (')' :: cs) =
      (splitComment depth cs).map fun (body, rest) => (')' :: body, rest) := rfl

@[simp]
theorem splitComment_done (cs : List Char) : splitComment 0 (')' :: cs) = some ([')'], cs) := rfl

theorem splitComment_plain (depth : Nat) (cs : List Char) (hc : isParen c = false) :
    splitComment depth (c :: cs) =
      (splitComment depth cs).map fun (body, rest) => (c :: body, rest) := by
  simp only [isParen, Bool.or_eq_false_iff] at hc
  simp [splitComment, hc]

/-- A character opens a comment, closes one or does neither. -/
theorem isParen_cases (c : Char) : c = '(' ∨ c = ')' ∨ isParen c = false := by
  by_cases h₁ : c = '('
  · exact .inl h₁
  · by_cases h₂ : c = ')'
    · exact .inr (.inl h₂)
    · exact .inr (.inr (by simp [isParen, h₁, h₂]))

theorem ClosesComment.splitComment_append (h : ClosesComment depth body) (rest : List Char) :
    splitComment depth (body ++ rest) = some (body, rest) := by
  induction h with
  | done => rfl
  | opening _ ih => simp [ih]
  | closing _ ih => simp [ih]
  | plain hc _ ih => simp [splitComment_plain, hc, ih]

theorem closesComment_of_splitComment (h : splitComment depth cs = some (body, rest)) :
    ClosesComment depth body := by
  induction cs generalizing depth body with
  | nil => cases h
  | cons c cs ih =>
      rcases isParen_cases c with rfl | rfl | hc
      · obtain ⟨⟨b, r⟩, hb, he⟩ := Option.map_eq_some_iff.mp h
        cases he
        exact .opening (ih hb)
      · cases depth with
        | zero =>
            cases h
            exact .done
        | succ depth =>
            obtain ⟨⟨b, r⟩, hb, he⟩ := Option.map_eq_some_iff.mp h
            cases he
            exact .closing (ih hb)
      · rw [splitComment_plain _ _ hc] at h
        obtain ⟨⟨b, r⟩, hb, he⟩ := Option.map_eq_some_iff.mp h
        cases he
        exact .plain hc (ih hb)

theorem splitComment_eq_some_iff :
    splitComment depth cs = some (body, rest) ↔ ClosesComment depth body ∧ cs = body ++ rest := by
  constructor
  · exact fun h => ⟨closesComment_of_splitComment h, (splitComment_append h).symm⟩
  · rintro ⟨h, rfl⟩
    exact h.splitComment_append rest

theorem splitComment_append_right (h : splitComment depth ds = some (body, rest))
    (cs : List Char) : splitComment depth (ds ++ cs) = some (body, rest ++ cs) := by
  obtain ⟨hbody, rfl⟩ := splitComment_eq_some_iff.mp h
  rw [List.append_assoc, hbody.splitComment_append]

/-- A comment that never ends does not end sooner. -/
theorem splitComment_eq_none_of_initial (h : splitComment depth cs = none) (hds : ds <+: cs) :
    splitComment depth ds = none := by
  obtain ⟨rest, rfl⟩ := hds
  refine Option.eq_none_iff_forall_ne_some.mpr fun pieces hsplit => ?_
  rw [splitComment_append_right hsplit] at h
  cases h

/-- Nor does a comment end before its end. -/
theorem ClosesComment.splitComment_initial (h : ClosesComment depth body) (hds : ds <+: body)
    (hne : ds ≠ body) : splitComment depth ds = none := by
  obtain ⟨rest, rfl⟩ := hds
  refine Option.eq_none_iff_forall_ne_some.mpr fun pieces hsplit => ?_
  have hwhole := h.splitComment_append []
  rw [List.append_nil, splitComment_append_right hsplit, Option.some.injEq, Prod.mk.injEq,
    List.append_eq_nil_iff] at hwhole
  exact hne (by rw [hwhole.2.2, List.append_nil])

theorem ClosesComment.getLast? (h : ClosesComment depth body) : body.getLast? = some ')' := by
  induction h with
  | done => rfl
  | opening _ ih => simp [List.getLast?_cons, ih]
  | closing _ ih => simp [List.getLast?_cons, ih]
  | plain _ _ ih => simp [List.getLast?_cons, ih]

/-! ## Counting parentheses -/

theorem count_of_plain (hc : isParen c = false) (cs : List Char) :
    (c :: cs).count '(' = cs.count '(' ∧ (c :: cs).count ')' = cs.count ')' := by
  simp only [isParen, Bool.or_eq_false_iff, beq_eq_false_iff_ne] at hc
  exact ⟨List.count_cons_of_ne hc.1, List.count_cons_of_ne hc.2⟩

/-- With its last parenthesis, the text closes one more comment than are open, -/
theorem ClosesComment.count (h : ClosesComment depth body) :
    body.count ')' = body.count '(' + depth + 1 := by
  induction h with
  | done => rfl
  | opening _ ih => simp; omega
  | closing _ ih => simp; omega
  | plain hc _ ih => simp only [count_of_plain hc, ih]

/-- and a text that does not close them all closes no more than are open. -/
theorem count_le_of_splitComment (h : splitComment depth cs = none) :
    cs.count ')' ≤ cs.count '(' + depth := by
  induction cs generalizing depth with
  | nil => simp
  | cons c cs ih =>
      rcases isParen_cases c with rfl | rfl | hc
      · have hle := ih (Option.map_eq_none_iff.mp h)
        simp
        omega
      · cases depth with
        | zero => cases h
        | succ depth =>
            have hle := ih (Option.map_eq_none_iff.mp h)
            simp
            omega
      · rw [splitComment_plain _ _ hc, Option.map_eq_none_iff] at h
        simpa only [count_of_plain hc] using ih h

theorem balanced_comment_iff : Balanced ('(' :: cs) ↔ cs.count ')' = cs.count '(' + 1 := by
  simp [Balanced, eq_comm]

/-- A complete comment is the shortest balanced piece of text. -/
theorem ClosesComment.shortestBalanced (h : ClosesComment 0 body) (rest : List Char) :
    ShortestBalanced ('(' :: body) ('(' :: (body ++ rest)) where
  initial := List.prefix_append ('(' :: body) rest
  ne_nil := List.cons_ne_nil _ _
  balanced := balanced_comment_iff.mpr h.count
  shortest := by
    intro cs hcs hne hbal
    obtain rfl | ⟨ds, rfl, hds⟩ := List.prefix_cons_iff.mp hcs
    · exact absurd rfl hne
    · refine Nat.succ_le_succ (Nat.le_of_not_lt fun hlt => ?_)
      have hbody : ds <+: body :=
        List.prefix_of_prefix_length_le hds (List.prefix_append _ _) (Nat.le_of_lt hlt)
      have hle := count_le_of_splitComment
        (h.splitComment_initial hbody (by rintro rfl; exact Nat.lt_irrefl _ hlt))
      rw [balanced_comment_iff] at hbal
      omega

/-- No piece of the text is balanced if the comment never ends. -/
theorem not_balanced_of_splitComment (h : splitComment 0 cs = none) {piece : List Char}
    (hpiece : piece <+: '(' :: cs) (hne : piece ≠ []) : ¬ Balanced piece := by
  obtain rfl | ⟨body, rfl, hbody⟩ := List.prefix_cons_iff.mp hpiece
  · exact absurd rfl hne
  · have hle := count_le_of_splitComment (splitComment_eq_none_of_initial h hbody)
    rw [balanced_comment_iff]
    omega

theorem ShortestBalanced.unique {piece piece' text : List Char} (h : ShortestBalanced piece text)
    (h' : ShortestBalanced piece' text) : piece = piece' := by
  have hlen := Nat.le_antisymm (h.shortest _ h'.initial h'.ne_nil h'.balanced)
    (h'.shortest _ h.initial h.ne_nil h.balanced)
  exact (List.prefix_of_prefix_length_le h.initial h'.initial (Nat.le_of_eq hlen)).eq_of_length hlen

/-- A text that is a complete comment closes it at its end. -/
theorem ShortestBalanced.closesComment (h : ShortestBalanced ('(' :: body) ('(' :: body)) :
    ClosesComment 0 body := by
  cases hsplit : splitComment 0 body with
  | none => exact absurd h.balanced (not_balanced_of_splitComment hsplit h.initial h.ne_nil)
  | some pieces =>
      obtain ⟨inner, rest⟩ := pieces
      obtain ⟨hinner, rfl⟩ := splitComment_eq_some_iff.mp hsplit
      have heq := h.unique (hinner.shortestBalanced rest)
      rwa [(List.cons.inj heq).2]

/-! ## From one parenthesis to the next -/

theorem behindBytes_zero (cs : List Char) : behindBytes? 0 cs = some cs := by
  rw [behindBytes?]

theorem behindBytes_cons (c : Char) (cs : List Char) (i : Nat) :
    behindBytes? (c.utf8Size + i) (c :: cs) = behindBytes? i cs := by
  obtain ⟨n, hn⟩ : ∃ n, c.utf8Size + i = n + 1 := Nat.exists_eq_succ_of_ne_zero
    (Nat.ne_of_gt (Nat.add_pos_left c.utf8Size_pos i))
  rw [hn, behindBytes?, ← hn, if_pos (Nat.le_add_right _ _), Nat.add_sub_cancel_left]

theorem byteSize_cons (c : Char) (cs : List Char) :
    (String.ofList (c :: cs)).utf8ByteSize = c.utf8Size + (String.ofList cs).utf8ByteSize := by
  simp

theorem passComments_zero (n : Nat) (cs : List Char) : passComments 0 n cs = some (true, n) := by
  rw [passComments, if_pos rfl]

/-- One step goes to the next parenthesis and over it. -/
theorem passComments_succ (depth n : Nat) (cs : List Char) :
    passComments (depth + 1) n cs = match parenOffset? cs with
      | none => some (false, n + (String.ofList cs).utf8ByteSize)
      | some i => (behindBytes? (i + 1) cs).bind fun rest => (behindBytes? i cs).bind fun paren =>
          passComments (if paren.head? = some '(' then depth + 2 else depth) (n + (i + 1))
            rest := by
  rw [passComments, if_neg (Nat.succ_ne_zero depth)]
  cases parenOffset? cs with
  | none => rfl
  | some i =>
      simp only
      split
      · next h => simp [h]
      · next rest h => simp [h]

/-- A character that is no parenthesis is passed with those behind it. -/
theorem passComments_plain (hc : isParen c = false) (cs : List Char) :
    passComments (depth + 1) n (c :: cs) = passComments (depth + 1) (n + c.utf8Size) cs := by
  rw [passComments_succ, passComments_succ, parenOffset?, if_neg (by simp [hc])]
  cases parenOffset? cs with
  | none => simp [Nat.add_assoc]
  | some i =>
      have hbehind := behindBytes_cons c cs
      simp only [Option.map_some, hbehind, Nat.add_assoc]

theorem utf8Size_of_isParen (hc : isParen c) : c.utf8Size = 1 := by
  simp only [isParen, Bool.or_eq_true, beq_iff_eq] at hc
  rcases hc with rfl | rfl <;> rfl

/-- A parenthesis is passed on its own. -/
theorem passComments_paren (hc : isParen c) (cs : List Char) :
    passComments (depth + 1) n (c :: cs) =
      passComments (if c = '(' then depth + 2 else depth) (n + 1) cs := by
  have hbehind : behindBytes? (0 + 1) (c :: cs) = some cs := by
    have h := behindBytes_cons c cs 0
    rwa [utf8Size_of_isParen hc, behindBytes_zero] at h
  rw [passComments_succ, parenOffset?, if_pos hc]
  simp only [hbehind, behindBytes_zero, Option.bind_some, List.head?_cons, Option.some.injEq,
    Nat.zero_add]

/-- Counting from one parenthesis to the next finds the end of a comment. -/
theorem passComments_eq (depth n : Nat) (cs : List Char) :
    passComments (depth + 1) n cs = some (match splitComment depth cs with
      | some (body, _) => (true, n + (String.ofList body).utf8ByteSize)
      | none => (false, n + (String.ofList cs).utf8ByteSize)) := by
  induction cs generalizing depth n with
  | nil =>
      rw [passComments_succ]
      rfl
  | cons c cs ih =>
      have hsize := byteSize_cons c
      rcases isParen_cases c with rfl | rfl | hc
      · rw [utf8Size_of_isParen rfl] at hsize
        rw [passComments_paren rfl, if_pos rfl, ih, splitComment_opening]
        cases splitComment (depth + 1) cs <;> simp only [Option.map, hsize, Nat.add_assoc]
      · rw [utf8Size_of_isParen rfl] at hsize
        rw [passComments_paren rfl, if_neg (by decide)]
        cases depth with
        | zero => rw [passComments_zero, splitComment_done, hsize]; rfl
        | succ depth =>
            rw [ih, splitComment_closing]
            cases splitComment depth cs <;> simp only [Option.map, hsize, Nat.add_assoc]
      · rw [passComments_plain hc, ih, splitComment_plain depth cs hc]
        cases splitComment depth cs <;> simp only [Option.map, hsize, Nat.add_assoc]

end ScopedRewriting
