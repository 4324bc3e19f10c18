import Mathlib.Logic.Function.Basic
import ScopedRewriting.Scope.Built

/-!
# Shared links

Links with the same mark are the same, as a memory holds one chain for each mark (`Chain.LiesIn`).
So chains that begin with the same mark are equal, and comparing chains may stop at a link that both
share (`Chain.LiesIn.beq_iff`).
-/

namespace ScopedRewriting

namespace Chain

variable {π : Policy} {memory memory' : Nat → Chain} {n n' : Nat} {c d : Chain} {r : Rule}
  {rs : List Rule} {cs : List Chain}

/-- The memory holds, at the mark of each link, the chain that begins with this link. -/
inductive LiesIn (π : Policy) (memory : Nat → Chain) (n : Nat) : Chain → Prop
  | empty : LiesIn π memory n .empty
  | link {c : Chain} {m : Nat} {r : Rule} : LiesIn π memory n c → m < n → r ≠ .empty →
      Scope.HashedRule π r → memory m = ⟨.link (π.digest r c.scope.hash) r c.scope, m :: c.marks⟩ →
      LiesIn π memory n ⟨.link (π.digest r c.scope.hash) r c.scope, m :: c.marks⟩

namespace LiesIn

theorem mono (h : LiesIn π memory n c) (hn : n ≤ n') (hm : ∀ m < n, memory' m = memory m) :
    LiesIn π memory' n' c := by
  induction h with
  | empty => exact .empty
  | link _ hlt hr hrule hlink ih =>
      exact .link ih (Nat.lt_of_lt_of_le hlt hn) hr hrule ((hm _ hlt).trans hlink)

theorem hashed (h : LiesIn π memory n c) : Scope.Hashed π c.scope := by
  induction h with
  | empty => exact .nil
  | link _ _ hr hrule _ ih => exact .link hr hrule ih

theorem same_iff (hc : LiesIn π memory n c) (hd : LiesIn π memory n d) : c.same d ↔ c = d := by
  refine ⟨fun h => ?_, fun h => by simp [h, same]⟩
  have hhead : c.marks.head? = d.marks.head? := by simpa [same] using h
  cases hc with
  | empty =>
      cases hd with
      | empty => rfl
      | link => cases hhead
  | link _ _ _ _ hlink =>
      cases hd with
      | empty => cases hhead
      | link _ _ _ _ hlink' =>
          obtain rfl := Option.some.inj hhead
          exact hlink.symm.trans hlink'

/-- Whether it stops at a shared link or not, comparing finds whether the rules are equal. -/
theorem beq_iff (hc : LiesIn π memory n c) (hd : LiesIn π memory n d) :
    c.beq d ↔ c.scope = d.scope := by
  induction hc generalizing d with
  | empty => cases hd <;> simp [beq, beqFrom, Chain.empty]
  | @link c m r hc _ _ _ hlink ih =>
      cases hd with
      | empty => simp [beq, beqFrom, Chain.empty]
      | @link d m' q hd _ _ _ hlink' =>
          have hrest : beqFrom c.scope c.marks d.scope d.marks ↔ c.scope = d.scope := ih hd
          by_cases hm : m = m'
          · -- the links are one, and so are the chains behind them
            subst hm
            have hchain := hlink.symm.trans hlink'
            simpa [beq, beqFrom] using congrArg Chain.scope hchain
          · simp [beq, beqFrom, hm, hrest, and_assoc]

/-- There is room for a new link at the next mark. -/
theorem exists_extend (hc : LiesIn π memory n c) (hr : Scope.HashedRule π r) :
    ∃ memory', (∀ d, LiesIn π memory n d → LiesIn π memory' (n + 1) d) ∧
      LiesIn π memory' (n + 1) (c.extend π n r) := by
  have hkeep (e : Chain) : ∀ m < n, Function.update memory n e m = memory m :=
    fun m hm => Function.update_of_ne (Nat.ne_of_lt hm) e memory
  refine ⟨Function.update memory n (c.extend π n r),
    fun d hd => hd.mono (Nat.le_succ n) (hkeep _), ?_⟩
  by_cases hempty : r = .empty
  · subst hempty
    exact hc.mono (Nat.le_succ n) (hkeep _)
  · have hlink : c.extend π n r =
        ⟨.link (π.digest r c.scope.hash) r c.scope, n :: c.marks⟩ := by
      cases r with
      | empty => exact absurd rfl hempty
      | declaration | subst _ _ | function _ _ _ => rfl
    rw [hlink]
    exact .link (hc.mono (Nat.le_succ n) (hkeep _)) (Nat.lt_succ_self n) hempty hr
      (Function.update_self n _ memory)

theorem exists_extendMany (hc : LiesIn π memory n c) (hrs : ∀ r ∈ rs, Scope.HashedRule π r) :
    ∃ memory', (∀ d, LiesIn π memory n d → LiesIn π memory' (c.extendMany π n rs).2 d) ∧
      LiesIn π memory' (c.extendMany π n rs).2 (c.extendMany π n rs).1 := by
  induction rs generalizing c n memory with
  | nil => exact ⟨memory, fun _ hd => hd, hc⟩
  | cons r rs ih =>
      obtain ⟨hr, hrs⟩ := List.forall_mem_cons.mp hrs
      obtain ⟨memory₁, hkeep₁, hc₁⟩ := hc.exists_extend hr
      obtain ⟨memory₂, hkeep₂, hc₂⟩ := ih hc₁ hrs
      exact ⟨memory₂, fun d hd => hkeep₂ d (hkeep₁ d hd), hc₂⟩

end LiesIn

/-- Chains that are built lie in one memory. -/
theorem Built.exists_liesIn (h : Built π cs n) : ∃ memory, ∀ c ∈ cs, LiesIn π memory n c := by
  induction h with
  | nothing => exact ⟨fun _ => .empty, by simp⟩
  | empty _ ih =>
      obtain ⟨memory, ih⟩ := ih
      exact ⟨memory, List.forall_mem_cons.mpr ⟨.empty, ih⟩⟩
  | @extend cs n c r _ hc hclosure ih =>
      obtain ⟨memory, ih⟩ := ih
      have hr : Scope.HashedRule π r := .of_closure fun s hs => by
        obtain ⟨d, hd, rfl⟩ := hclosure s hs
        exact (ih d hd).hashed
      obtain ⟨memory', hkeep, hnew⟩ := (ih c hc).exists_extend hr
      exact ⟨memory', List.forall_mem_cons.mpr ⟨hnew, fun d hd => hkeep d (ih d hd)⟩⟩
  | @extendAll cs n c d _ hc hd ih =>
      obtain ⟨memory, ih⟩ := ih
      obtain ⟨memory', hkeep, hnew⟩ := (ih c hc).exists_extendMany fun r hr =>
        (ih d hd).hashed.rule r (List.mem_reverse.mp hr)
      exact ⟨memory', List.forall_mem_cons.mpr ⟨hnew, fun d hd => hkeep d (ih d hd)⟩⟩

end Chain

end ScopedRewriting
