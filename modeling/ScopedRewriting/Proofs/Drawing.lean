import Mathlib.Data.List.Forall2
import ScopedRewriting.Proofs.Printing
import ScopedRewriting.Term.Tree

/-!
# Drawings determine their terms

The branches in front of a line tell on which level the line begins an element, and a name holds no
blank, so a term can be told from its drawing even if names look like branches (`tree_decodable`).
-/

namespace ScopedRewriting

namespace Atom

/-- The names that can be spelled are words and marked words. -/
theorem spellable_toForm_iff {a : Atom} :
    a.toForm.Spellable ↔ IsWord a.name ∨ ∃ v : Atom, a = v.marked ∧ IsWord v.name := by
  cases hv : a.unmarked? with
  | none =>
      have hne : ¬ ∃ v : Atom, a = v.marked ∧ IsWord v.name := by
        rintro ⟨v, rfl, -⟩
        cases (unmarked?_marked v).symm.trans hv
      simp [toForm, hv, Form.Spellable, Form.words, hne]
  | some v =>
      obtain rfl := unmarked?_eq_some_iff.mp hv
      have hne : ¬ IsWord v.marked.name := fun h => by cases h.unmarked?.symm.trans hv
      simp [toForm, Form.Spellable, Form.words, hne, ← unmarked?_eq_some_iff]

/-- Apart from the mark of variables, such names hold characters of words only. -/
theorem wordChar_of_mem_name {a : Atom} (h : a.toForm.Spellable) {c : Char}
    (hc : c ∈ a.name.toList) : c = quoteMark ∨ isWordChar c := by
  rcases spellable_toForm_iff.mp h with hword | ⟨v, rfl, hword⟩
  · exact .inr (hword.2 c hc)
  · rw [marked, String.toList_append] at hc
    exact (List.mem_append.mp hc).imp (by simp [quoteMark]) (hword.2 c)

end Atom

namespace Term

variable {t u leaf : Term} {ts us : List Term} {ls ks rest : List String} {l : String} {b : Branch}

/-! ## Texts of lines -/

/-- The lines, every one ended by a line feed. -/
def joinLines (ls : List String) : String :=
  String.join (ls.map (· ++ "\n"))

@[simp]
theorem joinLines_cons (l : String) (ls : List String) :
    joinLines (l :: ls) = l ++ "\n" ++ joinLines ls :=
  String.join_cons

@[simp]
theorem joinLines_append (ls ks : List String) :
    joinLines (ls ++ ks) = joinLines ls ++ joinLines ks := by
  simp [joinLines]

/-- Two lists are cut at the same place if an element there is the first one without `p` in both. -/
theorem append_inj_of_run {α : Type} {p : α → Bool} {xs xs' ys ys' : List α}
    (hxs : ∀ x ∈ xs, p x) (hxs' : ∀ x ∈ xs', p x) (hys : ∀ y ∈ ys.head?, p y = false)
    (hys' : ∀ y ∈ ys'.head?, p y = false) (h : xs ++ ys = xs' ++ ys') : xs = xs' ∧ ys = ys' := by
  have htake {as bs : List α} (has : ∀ a ∈ as, p a) (hbs : ∀ b ∈ bs.head?, p b = false) :
      (as ++ bs).takeWhile p = as := by
    rw [List.takeWhile_append_of_pos has]
    cases bs with
    | nil => simp
    | cons b bs => simp [hbs b rfl]
  have hfront : xs = xs' := by rw [← htake hxs hys, h, htake hxs' hys']
  subst hfront
  exact ⟨rfl, List.append_cancel_left h⟩

theorem joinLines_injective (hls : ∀ l ∈ ls, '\n' ∉ l.toList) (hks : ∀ l ∈ ks, '\n' ∉ l.toList)
    (h : joinLines ls = joinLines ks) : ls = ks := by
  have hne (l : String) (ls : List String) : joinLines (l :: ls) ≠ joinLines [] := by
    intro heq
    have := congrArg String.toList heq
    simp [joinLines] at this
  have hplain {l : String} (hl : '\n' ∉ l.toList) : ∀ c ∈ l.toList, (c != '\n') = true := by
    rintro c hc
    simpa using fun heq : c = '\n' => hl (heq ▸ hc)
  induction ls generalizing ks with
  | nil =>
      cases ks with
      | nil => rfl
      | cons k ks => exact absurd h.symm (hne k ks)
  | cons l ls ih =>
      cases ks with
      | nil => exact absurd h (hne l ls)
      | cons k ks =>
          obtain ⟨hl, hls⟩ := List.forall_mem_cons.mp hls
          obtain ⟨hk, hks⟩ := List.forall_mem_cons.mp hks
          have hchars := congrArg String.toList h
          simp only [joinLines_cons, String.toList_append, List.append_assoc] at hchars
          obtain ⟨hfront, hrest⟩ := append_inj_of_run (hplain hl) (hplain hk)
            (by simp) (by simp) hchars
          have hlines : joinLines ls = joinLines ks :=
            String.toList_inj.mp (List.append_cancel_left hrest)
          rw [String.toList_inj.mp hfront, ih hls hks hlines]

/-! ## Branches -/

/-- The branches that occur in drawings. -/
def Branch.Drawn (b : Branch) : Prop :=
  b = .first ∨ b = .middle ∨ b = .last

/-- Whether the line begins an element. -/
def opensElement (l : String) : Bool :=
  l.toList.head?.any fun c => c == '┬' || c == '├' || c == '└'

theorem Branch.Drawn.opensElement_head (h : b.Drawn) (l : String) : opensElement (b.head ++ l) := by
  rcases h with rfl | rfl | rfl <;> simp [opensElement, first, middle, last]

theorem Branch.Drawn.opensElement_indent (h : b.Drawn) (l : String) :
    opensElement (b.indent ++ l) = false := by
  rcases h with rfl | rfl | rfl <;> simp [opensElement, first, middle, last]

theorem Branch.Drawn.eq_of_head_append {b' : Branch} (h : b.Drawn) (h' : b'.Drawn) {k : String}
    (heq : b.head ++ l = b'.head ++ k) : b = b' ∧ l = k := by
  have hchars := congrArg String.toList heq
  rcases h with rfl | rfl | rfl <;> rcases h' with rfl | rfl | rfl <;>
    simp [first, middle, last, String.toList_inj] at hchars ⊢ <;> exact hchars

theorem Branch.attach_append (b : Branch) (hls : ls ≠ []) (ks : List String) :
    b.attach (ls ++ ks) = b.attach ls ++ ks.map (b.indent ++ ·) := by
  cases ls with
  | nil => exact absurd rfl hls
  | cons l ls => simp [attach]

theorem Branch.attach_attach (b : Branch) (margin : String) (ls : List String) :
    attach ⟨"", margin⟩ (b.attach ls) = attach ⟨b.head, margin ++ b.indent⟩ ls := by
  cases ls with
  | nil => rfl
  | cons l ls => simp [attach, String.append_assoc]

theorem Branch.attach_empty (ls : List String) : attach ⟨"", ""⟩ ls = ls := by
  cases ls with
  | nil => rfl
  | cons l ls => simp [attach]

theorem Branch.map_attach (b : Branch) (margin : String) (ls : List String) :
    (b.attach ls).map (margin ++ ·) = attach ⟨margin ++ b.head, margin ++ b.indent⟩ ls := by
  cases ls with
  | nil => rfl
  | cons l ls => simp [attach, String.append_assoc]

theorem Branch.attach_ne_nil (b : Branch) (hls : ls ≠ []) : b.attach ls ≠ [] := by
  cases ls with
  | nil => exact absurd rfl hls
  | cons l ls => simp [attach]

/-- The lines of an element end where the next element begins. -/
theorem Branch.Drawn.attach_append_inj {b' : Branch} {ls' rest' : List String} (hb : b.Drawn)
    (hb' : b'.Drawn) (hls : ls ≠ []) (hls' : ls' ≠ []) (hrest : ∀ l ∈ rest.head?, opensElement l)
    (hrest' : ∀ l ∈ rest'.head?, opensElement l)
    (h : b.attach ls ++ rest = b'.attach ls' ++ rest') : ls = ls' ∧ rest = rest' := by
  obtain ⟨l, ms, rfl⟩ := List.exists_cons_of_ne_nil hls
  obtain ⟨l', ms', rfl⟩ := List.exists_cons_of_ne_nil hls'
  obtain ⟨hfirst, hothers⟩ := List.cons.inj h
  obtain ⟨rfl, rfl⟩ := hb.eq_of_head_append hb' hfirst
  have hinside (ms : List String) : ∀ k ∈ ms.map (b.indent ++ ·), !opensElement k := by
    intro k hk
    obtain ⟨m, -, rfl⟩ := List.mem_map.mp hk
    simp [hb.opensElement_indent]
  obtain ⟨hms, hrests⟩ := append_inj_of_run (hinside ms) (hinside ms')
    (by simpa using hrest) (by simpa using hrest') hothers
  have hinj : Function.Injective (b.indent ++ ·) := fun k m => (String.append_right_inj b.indent).mp
  exact ⟨congrArg _ (List.map_injective_iff.mpr hinj hms), hrests⟩

/-! ## Drawings -/

theorem drawing_ne_nil (t : Term) : t.drawing ≠ [] := by
  match t with
  | .atom a => simp [drawing]
  | .seq [] => simp [drawing]
  | .seq (t :: ts) => simp [drawing, Branch.attach_ne_nil _ (drawing_ne_nil t)]

/-- The branch of an element that has the given elements behind it. -/
def Branch.before (ts : List Term) : Branch :=
  if ts = [] then .last else .middle

theorem Branch.drawn_before (ts : List Term) : (before ts).Drawn := by
  unfold before
  split
  · exact .inr (.inr rfl)
  · exact .inr (.inl rfl)

theorem drawingRest_cons (t : Term) (ts : List Term) :
    drawingRest (t :: ts) = (Branch.before ts).attach t.drawing ++ drawingRest ts := by
  cases ts with
  | nil => simp [drawingRest, Branch.before]
  | cons u us => simp [drawingRest, Branch.before]

theorem opensElement_of_mem_head? (ts : List Term) :
    ∀ l ∈ (drawingRest ts).head?, opensElement l := by
  cases ts with
  | nil => simp [drawingRest]
  | cons t ts =>
      obtain ⟨l, ls, hls⟩ := List.exists_cons_of_ne_nil t.drawing_ne_nil
      rw [drawingRest_cons, hls]
      rintro _ ⟨⟩
      exact (Branch.drawn_before ts).opensElement_head l

theorem drawingRest_cons_ne_nil (t : Term) (ts : List Term) : drawingRest (t :: ts) ≠ [] := by
  rw [drawingRest_cons]
  exact List.append_ne_nil_of_left_ne_nil (Branch.attach_ne_nil _ t.drawing_ne_nil) _

theorem drawing_seq_ne (t : Term) (ts : List Term) (text : String) :
    drawing (.seq (t :: ts)) ≠ [" " ++ text] := by
  obtain ⟨l, ls, hls⟩ := List.exists_cons_of_ne_nil t.drawing_ne_nil
  intro h
  rw [drawing, hls] at h
  have hopens : opensElement (Branch.first.head ++ l) := Branch.Drawn.opensElement_head (.inl rfl) l
  rw [show Branch.first.head ++ l = " " ++ text from (List.cons.inj h).1] at hopens
  simp [opensElement] at hopens

/-! ## Leaves -/

/-- The term has no elements. -/
inductive IsLeaf : Term → Prop
  | atom (a : Atom) : IsLeaf (.atom a)
  | nil : IsLeaf (.seq [])

theorem isLeaf_or_seq (t : Term) : t.IsLeaf ∨ ∃ u us, t = .seq (u :: us) := by
  match t with
  | .atom a => exact .inl (.atom a)
  | .seq [] => exact .inl .nil
  | .seq (u :: us) => exact .inr ⟨u, us, rfl⟩

namespace IsLeaf

theorem drawing_eq (h : t.IsLeaf) : t.drawing = [" " ++ t.text] := by
  cases h <;> rfl

theorem treeLines_eq (h : t.IsLeaf) : t.treeLines = [t.text] := by
  cases h <;> rfl

theorem leaves_eq (h : t.IsLeaf) : t.leaves = [t] := by
  cases h <;> rfl

theorem not_mem_text (h : t.IsLeaf) (ht : t.Spellable) {c : Char} (hc : isBlank c) :
    c ∉ t.text.toList := by
  intro hm
  cases h with
  | atom a =>
      rcases Atom.wordChar_of_mem_name (ht a (by simp [atoms])) hm with rfl | hword
      · cases hc
      · simp [isBlank_of_isWordChar hword] at hc
  | nil =>
      have hm : c = '[' ∨ c = ']' := by simpa [text, texts, bracketed] using hm
      rcases hm with rfl | rfl <;> cases hc

theorem eq_of_text_eq (h : t.IsLeaf) (h' : u.IsLeaf) (ht : t.Spellable) (hu : u.Spellable)
    (heq : t.text = u.text) : t = u := by
  have hname {a : Atom} (ha : (Term.atom a).Spellable) : (Term.atom a).text ≠ (seq []).text := by
    intro heq
    have hm : '[' ∈ a.name.toList := by
      rw [show a.name = "[]" from heq]
      decide
    rcases Atom.wordChar_of_mem_name (ha a (by simp [atoms])) hm with hc | hc <;> cases hc
  cases h with
  | atom a =>
      cases h' with
      | atom b => exact congrArg _ (congrArg Atom.mk heq)
      | nil => exact absurd heq (hname ht)
  | nil =>
      cases h' with
      | atom b => exact absurd heq.symm (hname hu)
      | nil => rfl

theorem eq_of_drawing_eq (h : t.IsLeaf) (h' : u.IsLeaf) (ht : t.Spellable) (hu : u.Spellable)
    (heq : t.drawing = u.drawing) : t = u := by
  rw [h.drawing_eq, h'.drawing_eq, List.singleton_inj, String.append_right_inj] at heq
  exact h.eq_of_text_eq h' ht hu heq

end IsLeaf

theorem spellable_seq_iff : (seq ts).Spellable ↔ ∀ t ∈ ts, t.Spellable := by
  simp only [Spellable, atoms, atomsAll_eq_flatMap, List.mem_flatMap]
  constructor
  · exact fun h t ht a ha => h a ⟨t, ht, ha⟩
  · rintro h a ⟨t, ht, ha⟩
    exact h t ht a ha

/-! ## Terms from their drawings -/

mutual
theorem eq_of_drawing_eq : (t u : Term) → t.Spellable → u.Spellable → t.drawing = u.drawing → t = u
  | .seq (t :: ts), .seq (u :: us), ht, hu, h => by
      obtain ⟨ht, hts⟩ := List.forall_mem_cons.mp (spellable_seq_iff.mp ht)
      obtain ⟨hu, hus⟩ := List.forall_mem_cons.mp (spellable_seq_iff.mp hu)
      rw [drawing, drawing] at h
      obtain ⟨hfirst, hothers⟩ := Branch.Drawn.attach_append_inj (.inl rfl) (.inl rfl)
        t.drawing_ne_nil u.drawing_ne_nil (opensElement_of_mem_head? ts)
        (opensElement_of_mem_head? us) h
      rw [eq_of_drawing_eq t u ht hu hfirst, eq_of_drawingRest_eq ts us hts hus hothers]
  | .seq (t :: ts), .atom b, _, _, h => absurd h (drawing_seq_ne t ts b.name)
  | .seq (t :: ts), .seq [], _, _, h => absurd h (drawing_seq_ne t ts "[]")
  | .atom a, .seq (u :: us), _, _, h => absurd h.symm (drawing_seq_ne u us a.name)
  | .seq [], .seq (u :: us), _, _, h => absurd h.symm (drawing_seq_ne u us "[]")
  | .atom a, .atom b, ht, hu, h => IsLeaf.eq_of_drawing_eq (.atom a) (.atom b) ht hu h
  | .atom a, .seq [], ht, hu, h => IsLeaf.eq_of_drawing_eq (.atom a) .nil ht hu h
  | .seq [], .atom b, ht, hu, h => IsLeaf.eq_of_drawing_eq .nil (.atom b) ht hu h
  | .seq [], .seq [], _, _, _ => rfl

theorem eq_of_drawingRest_eq : (ts us : List Term) → (∀ t ∈ ts, t.Spellable) →
    (∀ u ∈ us, u.Spellable) → drawingRest ts = drawingRest us → ts = us
  | [], [], _, _, _ => rfl
  | [], u :: us, _, _, h => absurd h.symm (drawingRest_cons_ne_nil u us)
  | t :: ts, [], _, _, h => absurd h (drawingRest_cons_ne_nil t ts)
  | t :: ts, u :: us, ht, hu, h => by
      obtain ⟨ht, hts⟩ := List.forall_mem_cons.mp ht
      obtain ⟨hu, hus⟩ := List.forall_mem_cons.mp hu
      rw [drawingRest_cons, drawingRest_cons] at h
      obtain ⟨hfirst, hothers⟩ := (Branch.drawn_before ts).attach_append_inj
        (Branch.drawn_before us) t.drawing_ne_nil u.drawing_ne_nil (opensElement_of_mem_head? ts)
        (opensElement_of_mem_head? us) h
      rw [eq_of_drawing_eq t u ht hu hfirst, eq_of_drawingRest_eq ts us hts hus hothers]
end

/-! ## The line of a leaf -/

/-- The line ends in a blank and the text of the leaf. -/
def Shows (leaf : Term) (l : String) : Prop :=
  ∃ front, l = front ++ " " ++ leaf.text ∧ '\n' ∉ front.toList

theorem Shows.behind {front : String} (h : leaf.Shows l) (hfront : '\n' ∉ front.toList) :
    leaf.Shows (front ++ l) := by
  obtain ⟨rest, rfl, hrest⟩ := h
  exact ⟨front ++ rest, by simp only [String.append_assoc], by simp [hfront, hrest]⟩

theorem Branch.Drawn.shows (h : b.Drawn) (hls : List.Forall₂ Shows ts ls) :
    List.Forall₂ Shows ts (b.attach ls) := by
  have hhead : '\n' ∉ b.head.toList := by rcases h with rfl | rfl | rfl <;> decide
  have hindent : '\n' ∉ b.indent.toList := by rcases h with rfl | rfl | rfl <;> decide
  cases hls with
  | nil => exact .nil
  | cons hl hls =>
      refine .cons (hl.behind hhead) (List.forall₂_map_right_iff.mpr (hls.imp fun _ _ hl => ?_))
      exact hl.behind hindent

theorem IsLeaf.shows (h : t.IsLeaf) : List.Forall₂ Shows t.leaves t.drawing := by
  rw [h.leaves_eq, h.drawing_eq]
  exact .cons ⟨"", rfl, by simp⟩ .nil

mutual
theorem shows_drawing : (t : Term) → List.Forall₂ Shows t.leaves t.drawing
  | .atom a => (IsLeaf.atom a).shows
  | .seq [] => IsLeaf.nil.shows
  | .seq (t :: ts) =>
      List.rel_append (Branch.Drawn.shows (.inl rfl) (shows_drawing t)) (shows_drawingRest ts)

theorem shows_drawingRest : (ts : List Term) → List.Forall₂ Shows (leavesAll ts) (drawingRest ts)
  | [] => .nil
  | t :: ts => by
      rw [leavesAll, drawingRest_cons]
      exact List.rel_append ((Branch.drawn_before ts).shows (shows_drawing t))
        (shows_drawingRest ts)
end

/-! ## Whole drawings -/

theorem isLeaf_of_mem_leaves (ht : t.Spellable) :
    ∀ leaf ∈ t.leaves, leaf.IsLeaf ∧ leaf.Spellable := by
  induction t using induct with
  | atom a =>
      rw [(IsLeaf.atom a).leaves_eq]
      simpa using ⟨.atom a, ht⟩
  | seq ts ih =>
      have hts := spellable_seq_iff.mp ht
      cases ts with
      | nil =>
          rw [IsLeaf.nil.leaves_eq]
          simpa using ⟨.nil, ht⟩
      | cons t ts =>
          intro leaf hleaf
          rw [show leaves (.seq (t :: ts)) = _ from leavesAll_eq_flatMap (t :: ts)] at hleaf
          obtain ⟨u, hu, hleaf⟩ := List.mem_flatMap.mp hleaf
          exact ih u hu (hts u hu) leaf hleaf

/-- The line holds no line feed, and ends in the text of the leaf. -/
def IsLine (leaf : Term) (l : String) : Prop :=
  '\n' ∉ l.toList ∧ ∃ front, l = front ++ leaf.text

theorem isLine_treeLines (ht : t.Spellable) : List.Forall₂ IsLine t.leaves t.treeLines := by
  have hleaves := isLeaf_of_mem_leaves ht
  rcases t.isLeaf_or_seq with hleaf | ⟨u, us, rfl⟩
  · rw [hleaf.leaves_eq, hleaf.treeLines_eq]
    exact .cons ⟨hleaf.not_mem_text ht rfl, "", String.empty_append.symm⟩ .nil
  · refine ((List.forall₂_and_left _ _).mpr ⟨hleaves, shows_drawing _⟩).imp ?_
    rintro leaf _ ⟨⟨hleaf, hspell⟩, front, rfl, hfront⟩
    refine ⟨?_, front ++ " ", rfl⟩
    simpa [hfront] using hleaf.not_mem_text hspell rfl

theorem not_mem_of_isLine (h : List.Forall₂ IsLine ts ls) : ∀ l ∈ ls, '\n' ∉ l.toList := by
  induction h with
  | nil => simp
  | cons hl _ ih => exact List.forall_mem_cons.mpr ⟨hl.1, ih⟩

theorem count_joinLines (h : List.Forall₂ IsLine ts ls) :
    (joinLines ls).toList.count '\n' = ts.length := by
  induction h with
  | nil => rfl
  | cons hl _ ih =>
      simp only [joinLines_cons, String.toList_append, List.count_append, ih, List.length_cons,
        List.count_eq_zero.mpr hl.1]
      exact Nat.add_comm 1 _

theorem getLast?_joinLines (hls : ls ≠ []) : (joinLines ls).toList.getLast? = some '\n' := by
  induction ls with
  | nil => exact absurd rfl hls
  | cons l ls ih =>
      rw [joinLines_cons, String.toList_append, String.toList_append, List.getLast?_append]
      cases ls with
      | nil => simp [joinLines]
      | cons k ks => rw [ih (by simp), Option.some_or]

theorem treeLines_ne_nil (t : Term) : t.treeLines ≠ [] := by
  rcases t.isLeaf_or_seq with hleaf | ⟨u, us, rfl⟩
  · simp [hleaf.treeLines_eq]
  · exact drawing_ne_nil _

theorem eq_of_treeLines_eq (ht : t.Spellable) (hu : u.Spellable) (h : t.treeLines = u.treeLines) :
    t = u := by
  -- a line with branches holds a blank, the text of a leaf does not
  have hne {t : Term} (hleaf : t.IsLeaf) (ht : t.Spellable) (u : Term) (us : List Term) :
      t.treeLines ≠ drawing (.seq (u :: us)) := by
    intro h
    rw [hleaf.treeLines_eq] at h
    have hshows := shows_drawing (.seq (u :: us))
    rw [← h] at hshows
    obtain ⟨_, _, ⟨front, htext, -⟩, -⟩ := List.forall₂_cons_right_iff.mp hshows
    exact hleaf.not_mem_text ht (c := ' ') rfl (by simp [htext])
  rcases t.isLeaf_or_seq with hleaf | ⟨t', ts, rfl⟩
  · rcases u.isLeaf_or_seq with hleaf' | ⟨u', us, rfl⟩
    · rw [hleaf.treeLines_eq, hleaf'.treeLines_eq, List.singleton_inj] at h
      exact hleaf.eq_of_text_eq hleaf' ht hu h
    · exact absurd h (hne hleaf ht u' us)
  · rcases u.isLeaf_or_seq with hleaf' | ⟨u', us, rfl⟩
    · exact absurd h.symm (hne hleaf' hu t' ts)
    · exact eq_of_drawing_eq _ _ ht hu h

/-! ## Writing from top to bottom -/

theorem append_joinLines_attach (head margin : String) (hls : ls ≠ []) :
    head ++ joinLines (Branch.attach ⟨"", margin⟩ ls) =
      joinLines (Branch.attach ⟨head, margin⟩ ls) := by
  cases ls with
  | nil => exact absurd rfl hls
  | cons l ls => simp [Branch.attach, String.append_assoc]

theorem Branch.ofIndex_eq_before {last i : Nat} (hi : i ≠ 0) (h : i + ts.length = last) :
    ofIndex last i = before ts := by
  unfold ofIndex before
  cases ts with
  | nil => simp_all
  | cons t ts =>
      have hne : i ≠ last := by
        rw [List.length_cons] at h
        omega
      simp [hi, hne]

mutual
theorem writeElement?_eq (margin : String) : (t : Term) →
    writeElement? margin t = some (joinLines (Branch.attach ⟨"", margin⟩ t.drawing))
  | .atom a => by simp [writeElement?, drawing, text, Branch.attach, joinLines]
  | .seq [] => by simp [writeElement?, drawing, text, texts, bracketed, Branch.attach, joinLines]
  | .seq (t :: ts) => by
      have helement := writeElement?_eq (margin ++ Branch.first.indent) t
      have hothers := writeElements?_eq margin ts.length 1 Nat.one_ne_zero ts (Nat.add_comm 1 _)
      simp only [writeElement?, lastIndex?, writeElements?, Branch.ofIndex, List.length_cons,
        Nat.add_one_ne_zero, if_false, if_true, Nat.add_sub_cancel, Nat.zero_add, helement, hothers,
        Option.bind_eq_bind, Option.bind_some, Option.pure_def]
      rw [drawing, Branch.attach_append _ (Branch.attach_ne_nil _ t.drawing_ne_nil),
        joinLines_append, Branch.attach_attach, String.empty_append,
        append_joinLines_attach _ _ t.drawing_ne_nil]

theorem writeElements?_eq (margin : String) (last i : Nat) (hi : i ≠ 0) : (ts : List Term) →
    i + ts.length = last + 1 →
    writeElements? margin last i ts = some (joinLines ((drawingRest ts).map (margin ++ ·)))
  | [], _ => by simp [writeElements?, drawingRest, joinLines]
  | t :: ts, h => by
      rw [List.length_cons] at h
      have hbranch : Branch.ofIndex last i = .before ts := Branch.ofIndex_eq_before hi (by omega)
      have helement := writeElement?_eq (margin ++ (Branch.before ts).indent) t
      have hothers := writeElements?_eq margin last (i + 1) i.succ_ne_zero ts (by omega)
      simp only [writeElements?, hbranch, helement, hothers, hi, if_false, Option.bind_eq_bind,
        Option.bind_some, Option.pure_def]
      rw [drawingRest_cons, List.map_append, joinLines_append, Branch.map_attach,
        append_joinLines_attach _ _ t.drawing_ne_nil]
end

theorem write?_eq (t : Term) : t.write? = some t.tree := by
  rcases t.isLeaf_or_seq with hleaf | ⟨u, us, rfl⟩
  · cases hleaf <;> rfl
  · rw [write?, writeElement?_eq, Branch.attach_empty]
    rfl

/-- Terms with the same drawing are equal, a drawing has one line for each leaf, and writing it
never subtracts from an empty length. -/
theorem tree_decodable (t : Term) (ht : t.Spellable) :
    (∀ u : Term, u.Spellable → (t.tree = u.tree ↔ t = u)) ∧
      (∃ lines, t.tree = joinLines lines ∧ List.Forall₂ IsLine t.leaves lines) ∧
      t.tree.toList.count '\n' = t.leaves.length ∧
      t.tree.toList.getLast? = some '\n' ∧
      t.write? = some t.tree := by
  refine ⟨fun u hu => ⟨fun h => ?_, congrArg tree⟩, ⟨t.treeLines, rfl, isLine_treeLines ht⟩,
    count_joinLines (isLine_treeLines ht), getLast?_joinLines t.treeLines_ne_nil, t.write?_eq⟩
  exact eq_of_treeLines_eq ht hu (joinLines_injective (not_mem_of_isLine (isLine_treeLines ht))
    (not_mem_of_isLine (isLine_treeLines hu)) h)

/-- Terms of names that look like branches, with and without a sequence around two elements. -/
private def lookalike (nested : Bool) : Term :=
  let inner := [.atom (Atom.marked ⟨"│"⟩), seq []]
  seq (.atom ⟨"┬─"⟩ :: (if nested then [seq inner] else inner) ++ [.atom ⟨"└─"⟩])

theorem tree_decodable_lookalikes :
    (lookalike true).Spellable ∧
      (lookalike true).tree = "┬─ ┬─\n├─┬─ '│\n│ └─ []\n└─ └─\n" ∧
      (lookalike false).tree ≠ (lookalike true).tree := by
  have hword : ∀ w ∈ ["┬─", "│", "└─"], IsWord w := by
    simp [IsWord, isWordChar, isBlank]
    decide
  have hspell (nested : Bool) : (lookalike nested).Spellable := by
    intro a ha
    have ha : a = ⟨"┬─"⟩ ∨ a = Atom.marked ⟨"│"⟩ ∨ a = ⟨"└─"⟩ := by
      cases nested <;> simpa [lookalike, atoms, atomsAll] using ha
    rcases ha with rfl | rfl | rfl
    · exact Atom.spellable_toForm_iff.mpr (.inl (hword _ (by simp)))
    · exact Atom.spellable_toForm_iff.mpr (.inr ⟨_, rfl, hword _ (by simp)⟩)
    · exact Atom.spellable_toForm_iff.mpr (.inl (hword _ (by simp)))
  refine ⟨hspell true, by decide +kernel, fun h => ?_⟩
  have heq := ((tree_decodable _ (hspell false)).1 _ (hspell true)).mp h
  exact absurd heq (by decide +kernel)

end Term

end ScopedRewriting
