import ScopedRewriting.Proofs.Instances

/-!
# Merged bindings

Bindings can be merged unless two of them bind a variable to different terms, and then the result is
what they bind together (`Grouping.merged_eq_some_iff`). So it does not matter in which order they
are merged, which ones first, and how often (`merge_unites`).
-/

namespace ScopedRewriting

namespace Bindings

/-! ## Two bindings -/

theorem merge_eq_some_iff {a b c : Bindings} : a.merge b = some c ↔
    ∀ v t, c.get? v = some t ↔ a.get? v = some t ∨ b.get? v = some t := by
  have hmerge {d : Bindings} (h : a.merge b = some d) (v : Atom) (t : Term) :
      d.get? v = some t ↔ a.get? v = some t ∨ b.get? v = some t := by
    rw [get?_merge h]
    cases ha : a.get? v with
    | none => simp
    | some u =>
        have hb : b.get? v = some t → u = t := Agree.of_merge h v u t ha
        simpa using hb
  refine ⟨hmerge, fun h => ?_⟩
  have hagree : a.Agree b := fun v t u ht hu =>
    Option.some.inj (((h v t).mpr (.inl ht)).symm.trans ((h v u).mpr (.inr hu)))
  obtain ⟨d, hd, -⟩ := hagree.exists_merge
  rw [hd, ext_get? fun v => Option.ext fun t => (hmerge hd v t).trans (h v t).symm]

theorem merge_eq_none_iff {a b : Bindings} : a.merge b = none ↔
    ∃ v t u, a.get? v = some t ∧ b.get? v = some u ∧ t ≠ u := by
  constructor
  · intro h
    have hne : ¬ a.Agree b := fun hab => by simp [hab.merge_eq] at h
    simp only [Agree, Classical.not_forall, exists_prop] at hne
    exact hne
  · rintro ⟨v, t, u, ht, hu, hne⟩
    exact merge_eq_none fun h => hne (h v t u ht hu)

/-- The union binds all variables that the first or the second bindings bind, each as one of both
does. -/
structure IsUnion (union : Bindings → Bindings → Bindings) : Prop where
  keeps : ∀ a b v, (a.get? v).isSome ∨ (b.get? v).isSome → ((union a b).get? v).isSome
  bound : ∀ a b v t, (union a b).get? v = some t → a.get? v = some t ∨ b.get? v = some t

theorem isUnion_union : IsUnion union where
  keeps a b v h := by simpa [get?_union] using h
  bound a b v t h := by
    rw [get?_union, Option.or_eq_some_iff] at h
    exact h.imp_right And.right

/-- Where bindings can be merged, it does not matter which of both a union prefers. -/
theorem IsUnion.eq_of_merge {union : Bindings → Bindings → Bindings} (h : IsUnion union)
    {a b c : Bindings} (hc : a.merge b = some c) : union a b = c := by
  have hiff := merge_eq_some_iff.mp hc
  refine ext_get? fun v => Option.ext fun t => ⟨fun ht => (hiff v t).mpr (h.bound a b v t ht), ?_⟩
  intro ht
  have hsome : ((union a b).get? v).isSome := by
    refine h.keeps a b v (((hiff v t).mp ht).imp ?_ ?_) <;> exact Option.isSome_of_eq_some
  obtain ⟨u, hu⟩ := Option.isSome_iff_exists.mp hsome
  rw [hu, ← (hiff v u).mpr (h.bound a b v u hu), ht]

/-! ## Any number of bindings -/

/-- Merges what there is. -/
def mergeBoth (x y : Option Bindings) : Option Bindings :=
  x.bind fun a => y.bind fun b => a.merge b

/-- In which order bindings are merged, and which of them first. -/
inductive Grouping where
  | nothing
  | one (b : Bindings)
  | both (g h : Grouping)

namespace Grouping

def bindings : Grouping → List Bindings
  | nothing => []
  | one b => [b]
  | both g h => g.bindings ++ h.bindings

def merged : Grouping → Option Bindings
  | nothing => some empty
  | one b => some b
  | both g h => mergeBoth g.merged h.merged

theorem exists_merged {c : Bindings} {g : Grouping} (h : ∀ b ∈ g.bindings, b.Within c) :
    ∃ a, g.merged = some a ∧ a.Within c := by
  induction g with
  | nothing => exact ⟨empty, rfl, .empty c⟩
  | one b => exact ⟨b, rfl, h b (by simp [bindings])⟩
  | both g k ihg ihk =>
      obtain ⟨hg, hk⟩ := List.forall_mem_append.mp h
      obtain ⟨a, ha, hac⟩ := ihg hg
      obtain ⟨b, hb, hbc⟩ := ihk hk
      obtain ⟨d, hd, -⟩ := (hac.agree hbc).exists_merge
      exact ⟨d, by simp [merged, mergeBoth, ha, hb, hd], (merge_within_iff hd).mpr ⟨hac, hbc⟩⟩

theorem get?_merged {c : Bindings} {g : Grouping} (h : g.merged = some c) (v : Atom) (t : Term) :
    c.get? v = some t ↔ ∃ b ∈ g.bindings, b.get? v = some t := by
  induction g generalizing c with
  | nothing =>
      cases h
      simp [bindings]
  | one b =>
      cases h
      simp [bindings]
  | both g k ihg ihk =>
      obtain ⟨a, ha, h⟩ := Option.bind_eq_some_iff.mp h
      obtain ⟨b, hb, h⟩ := Option.bind_eq_some_iff.mp h
      rw [merge_eq_some_iff.mp h, ihg ha, ihk hb, bindings]
      simp only [List.mem_append, or_and_right, exists_or]

/-- All bindings of the grouping can be merged if and only if there are bindings that consist of
theirs, and these are the result. -/
theorem merged_eq_some_iff {c : Bindings} {g : Grouping} :
    g.merged = some c ↔ ∀ v t, c.get? v = some t ↔ ∃ b ∈ g.bindings, b.get? v = some t := by
  refine ⟨get?_merged, fun h => ?_⟩
  obtain ⟨a, ha, -⟩ : ∃ a, g.merged = some a ∧ a.Within c :=
    exists_merged fun b hb v t ht => (h v t).mpr ⟨b, hb, ht⟩
  rw [ha, ext_get? fun v => Option.ext fun t => (get?_merged ha v t).trans (h v t).symm]

theorem merged_eq_of_mem_iff {g h : Grouping} (hmem : ∀ b, b ∈ g.bindings ↔ b ∈ h.bindings) :
    g.merged = h.merged :=
  Option.ext fun c => by simp only [merged_eq_some_iff, hmem]

theorem foldlM_merge (g : Grouping) (bs : List Bindings) :
    (g.merged.bind fun a => bs.foldlM merge a) =
      (bs.foldl (fun g b => both g (one b)) g).merged := by
  induction bs generalizing g with
  | nil => simp
  | cons b bs ih =>
      rw [List.foldl_cons, ← ih (both g (one b)), merged]
      cases g.merged <;> rfl

theorem bindings_foldl (g : Grouping) (bs : List Bindings) :
    (bs.foldl (fun g b => both g (one b)) g).bindings = g.bindings ++ bs := by
  induction bs generalizing g with
  | nil => simp
  | cons b bs ih => simp [ih, bindings]

/-- Merging from left to right is one of the ways to merge. -/
theorem merged_eq_foldlM (g : Grouping) : g.merged = g.bindings.foldlM merge empty := by
  rw [show g.bindings.foldlM merge empty = _ from foldlM_merge nothing g.bindings]
  exact merged_eq_of_mem_iff fun b => by simp [bindings_foldl, bindings]

end Grouping

theorem mergeBoth_comm (x y : Option Bindings) : mergeBoth x y = mergeBoth y x := by
  rcases x with _ | a <;> rcases y with _ | b
  · rfl
  · rfl
  · rfl
  · exact Grouping.merged_eq_of_mem_iff (g := .both (.one a) (.one b))
      (h := .both (.one b) (.one a)) fun c => by simp [Grouping.bindings, or_comm]

theorem mergeBoth_none (x : Option Bindings) : mergeBoth x none = none := by
  cases x <;> rfl

theorem mergeBoth_assoc (x y z : Option Bindings) :
    mergeBoth (mergeBoth x y) z = mergeBoth x (mergeBoth y z) := by
  rcases x with _ | a
  · rfl
  rcases y with _ | b
  · rfl
  rcases z with _ | c
  · simp only [mergeBoth_none]
  · exact Grouping.merged_eq_of_mem_iff (g := .both (.both (.one a) (.one b)) (.one c))
      (h := .both (.one a) (.both (.one b) (.one c))) fun d => by simp [Grouping.bindings]

theorem mergeBoth_self (x : Option Bindings) : mergeBoth x x = x := by
  rcases x with _ | a
  · rfl
  · exact Grouping.merged_eq_of_mem_iff (g := .both (.one a) (.one a)) (h := .one a)
      fun b => by simp [Grouping.bindings]

theorem mergeBoth_empty (x : Option Bindings) : mergeBoth x (some empty) = x := by
  rcases x with _ | a
  · rfl
  · exact Grouping.merged_eq_of_mem_iff (g := .both (.one a) .nothing) (h := .one a)
      fun b => by simp [Grouping.bindings]

/-- Merging finds whether some variable is bound to different terms, and otherwise what is bound by
the first or the second bindings, with or without a look for equal and empty ones first, and
whatever union is taken. With failures kept it is commutative, associative and idempotent, the empty
bindings change nothing, and any number of bindings can be merged in every order and grouping. -/
theorem merge_unites :
    (∀ a b : Bindings, a.unite b = a.merge b) ∧
    (∀ a b : Bindings, a.merge b = none ↔
      ∃ v t u, a.get? v = some t ∧ b.get? v = some u ∧ t ≠ u) ∧
    (∀ a b c : Bindings, a.merge b = some c ↔
      ∀ v t, c.get? v = some t ↔ a.get? v = some t ∨ b.get? v = some t) ∧
    (∀ union, IsUnion union → ∀ a b c : Bindings, a.merge b = some c → union a b = c) ∧
    (∀ x y, mergeBoth x y = mergeBoth y x) ∧
    (∀ x y z, mergeBoth (mergeBoth x y) z = mergeBoth x (mergeBoth y z)) ∧
    (∀ x, mergeBoth x x = x) ∧
    (∀ x, mergeBoth x (some empty) = x ∧ mergeBoth x none = none) ∧
    (∀ g h : Grouping, g.bindings.Perm h.bindings → g.merged = h.merged) ∧
    (∀ g : Grouping, g.merged = g.bindings.foldlM merge empty) :=
  ⟨unite_eq_merge, fun _ _ => merge_eq_none_iff, fun _ _ _ => merge_eq_some_iff,
    fun _ hunion _ _ _ => hunion.eq_of_merge, mergeBoth_comm, mergeBoth_assoc, mergeBoth_self,
    fun x => ⟨mergeBoth_empty x, mergeBoth_none x⟩,
    fun _ _ hperm => Grouping.merged_eq_of_mem_iff fun _ => hperm.mem_iff,
    Grouping.merged_eq_foldlM⟩

private def letting (v t : String) : Bindings :=
  .single ⟨v⟩ (.atom ⟨t⟩)

/-- `x` is bound to `A` and to `C`, which is found whether or not `y` is bound in between. For `x`
and `y`, a union may as well prefer the second bindings. -/
theorem merge_unites_apart :
    let g : Grouping := .both (.both (.one (letting "x" "A")) (.one (letting "y" "B")))
      (.one (letting "x" "C"))
    let h : Grouping := .both (.one (letting "y" "B"))
      (.both (.one (letting "x" "C")) (.both .nothing (.one (letting "x" "A"))))
    let xy : Bindings := (letting "y" "B").insert ⟨"x"⟩ (.atom ⟨"A"⟩)
    g.bindings.Perm h.bindings ∧ h.merged = none ∧ g.merged = none ∧
    IsUnion (fun a b => b.union a) ∧ (letting "x" "A").merge (letting "y" "B") = some xy ∧
    (letting "y" "B").union (letting "x" "A") = xy := by
  intro g h xy
  obtain ⟨-, -, -, hunion, -, -, -, -, hperm, -⟩ := merge_unites
  have hgh : g.bindings.Perm h.bindings := by decide +kernel
  have hnone : h.merged = none := by decide +kernel
  have hright : IsUnion fun a b => b.union a :=
    ⟨fun a b v hv => isUnion_union.keeps b a v hv.symm,
      fun a b v t ht => (isUnion_union.bound b a v t ht).symm⟩
  have hxy : (letting "x" "A").merge (letting "y" "B") = some xy := by decide +kernel
  exact ⟨hgh, hnone, (hperm g h hgh).trans hnone, hright, hxy, hunion _ hright _ _ _ hxy⟩

end Bindings

end ScopedRewriting
