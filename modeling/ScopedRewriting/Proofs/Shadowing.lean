import ScopedRewriting.Proofs.Simulation

/-!
# Shadowed rules

A user-defined rule is never applied if a more recent one has the same pattern. So scopes that
differ by such a rule, also inside of the closures of rules that are declared in them, rewrite every
term alike (`shadowed_rule_dead`).
-/

namespace ScopedRewriting

variable {π : Policy} {above above' : List Pattern} {rs rs' : List Rule}

/-- The rules on the right are those on the left with shadowed rules put in: user-defined rules with
the pattern of a rule before them, or with a pattern in `above`. This goes for closures, too. -/
inductive Rule.Shadowing : List Pattern → List Rule → List Rule → Prop
  | nil (above : List Pattern) : Rule.Shadowing above [] []
  | plain {above : List Pattern} {r : Rule} {rs rs' : List Rule} : r.pattern? = none →
      Rule.Shadowing above rs rs' → Rule.Shadowing above (r :: rs) (r :: rs')
  | function {above : List Pattern} (p : Pattern) (body : Term) {c c' : Scope}
      {rs rs' : List Rule} : Rule.Shadowing [] c.rules c'.rules →
      Rule.Shadowing (p :: above) rs rs' →
      Rule.Shadowing above (.function p body c :: rs) (.function p body c' :: rs')
  | shadowed {above : List Pattern} {p : Pattern} (body : Term) (c : Scope) {rs rs' : List Rule} :
      p ∈ above → Rule.Shadowing above rs rs' →
      Rule.Shadowing above rs (.function p body c :: rs')

namespace Rule

theorem Shadowing.mono (h : Shadowing above rs rs') (hsub : above ⊆ above') :
    Shadowing above' rs rs' := by
  induction h generalizing above' with
  | nil => exact .nil above'
  | plain hr _ ih => exact .plain hr (ih hsub)
  | function p body hc _ _ ih => exact .function p body hc (ih (List.cons_subset_cons p hsub))
  | shadowed body c hp _ ih => exact .shadowed body c (hsub hp) (ih hsub)

theorem shadowing_self (above : List Pattern) : (s : Scope) → Shadowing above s.rules s.rules
  | .nil => .nil above
  | .link _ .empty s => .plain rfl (shadowing_self above s)
  | .link _ .declaration s => .plain rfl (shadowing_self above s)
  | .link _ (.subst _ _) s => .plain rfl (shadowing_self above s)
  | .link _ (.function p body c) s => .function p body (shadowing_self [] c) (shadowing_self _ s)

theorem Shadowing.append_left (h : Shadowing above rs rs') (newer : List Rule) :
    Shadowing above (newer ++ rs) (newer ++ rs') := by
  induction newer generalizing above with
  | nil => exact h
  | cons r newer ih =>
      cases r with
      | function p body c =>
          have hmono := h.mono (List.subset_cons_self p above)
          exact .function p body (shadowing_self [] c) (ih hmono)
      | _ => exact .plain rfl (ih h)

theorem shadowing_refl (above : List Pattern) (rs : List Rule) : Shadowing above rs rs := by
  simpa using (Shadowing.nil above).append_left rs

theorem Shadowing.follow {t : Term} (h : Shadowing above rs rs')
    (habove : ∀ p ∈ above, p.match? t = none) :
    Follow id (fun _ => True) (fun s s' => Shadowing [] s.rules s'.rules) t rs rs' := by
  induction h with
  | nil => exact .nil
  | @plain _ r _ _ hr _ ih =>
      refine .both ?_ fun _ => ih habove
      cases r with
      | empty => exact .empty
      | declaration => exact .declaration
      | subst a u => simpa using Like.subst (f := id) a u trivial
      | function p body c => cases hr
  | function p body hc _ _ ih =>
      -- the rules behind are tried only if `p` does not match, so it may be added to those above
      refine .both ?_ fun hp => ih (List.forall_mem_cons.mpr ⟨hp p rfl, habove⟩)
      simpa using Like.function (f := id) p body trivial hc
  | shadowed body c hp _ ih => exact .idle body c (by simpa using habove _ hp) (ih habove)

end Rule

def Simulation.shadowing (π : Policy) : Simulation π π id fun _ => True where
  Alike s s' := Rule.Shadowing [] s.rules s'.rules
  follow h _ := h.follow (by simp)
  declare p h _ := by
    rw [Scope.rules_extend π (by simp), Scope.rules_extend π (by simp), Pattern.rename_id,
      Term.rename_id]
    exact .function p _ h (h.mono (by simp))

/-- A user-defined rule below another one with the same pattern makes no difference, whatever its
body and its closure are. -/
theorem shadowed_rule_dead {engine engine' : Engine} (h : engine.Filled π) (h' : engine'.Filled π)
    {s s' : Scope} {newer middle older : List Rule} {p : Pattern} {body body' : Term}
    {c c' : Scope} (hs : s.rules = newer ++ .function p body c :: (middle ++ older))
    (hs' : s'.rules = newer ++ .function p body c :: (middle ++ .function p body' c' :: older))
    (t u : Term) :
    engine.Answers π (.normalize s t) u ↔ engine'.Answers π (.normalize s' t) u := by
  have hdead : Rule.Shadowing [p] (middle ++ older) (middle ++ .function p body' c' :: older) := by
    refine Rule.Shadowing.append_left ?_ middle
    exact .shadowed body' c' (by simp) (Rule.shadowing_refl [p] older)
  have halike : (Simulation.shadowing π).Alike s s' := by
    change Rule.Shadowing [] s.rules s'.rules
    rw [hs, hs']
    exact Rule.Shadowing.append_left (.function p body (Rule.shadowing_self [] c) hdead) newer
  have hiff := (Simulation.shadowing π).normalForm_rename_iff (w := u) Atom.renaming_id
    Term.hereditary_true halike (t := t) trivial
  rw [h.normalizes_iff, h'.normalizes_iff]
  simpa using hiff.symm

/-- The base scope with the rule from `k` to `m`, to which a rule from `[f 'x]` to `A` is added. The
given rules are declared before. -/
private def scopeOver (older : List Rule) : Scope :=
  ((Scope.base .standard).extendMany .standard older).extendMany .standard
    [.function (.lit ⟨"k"⟩) (.atom ⟨"m"⟩) (.base .standard),
      .function (.seq [.lit ⟨"f"⟩, .var ⟨"x"⟩]) (.atom ⟨"A"⟩) (.base .standard)]

/-- `[[g 'x] -> [f x] [g k]]` -/
private def declaringTerm : Term :=
  .ofForm (.group [.group [.word "g", .quoted "x"], .word "->", .group [.word "f", .word "x"],
    .group [.word "g", .word "k"]])

/-- The closure of the rule that is declared holds the shadowed rule. -/
theorem shadowed_rule_dead_in_closure :
    let dead := Rule.function (.seq [.lit ⟨"f"⟩, .var ⟨"x"⟩]) (.atom ⟨"B"⟩) .nil
    Engine.Filled .standard {} ∧
    (scopeOver []).rules = [
      .function (.seq [.lit ⟨"f"⟩, .var ⟨"x"⟩]) (.atom ⟨"A"⟩) (.base .standard),
      .function (.lit ⟨"k"⟩) (.atom ⟨"m"⟩) (.base .standard), .declaration] ∧
    (scopeOver [dead]).rules = [
      .function (.seq [.lit ⟨"f"⟩, .var ⟨"x"⟩]) (.atom ⟨"A"⟩) (.base .standard),
      .function (.lit ⟨"k"⟩) (.atom ⟨"m"⟩) (.base .standard), dead, .declaration] ∧
    Engine.Answers .standard {} (.normalize (scopeOver [dead]) declaringTerm) (.atom ⟨"A"⟩) := by
  intro dead
  have h : Engine.Filled .standard {} := .fresh
  have hu : Engine.Answers .standard {} (.normalize (scopeOver []) declaringTerm) (.atom ⟨"A"⟩) :=
    h.normalizes_iff.mpr ⟨8, by decide +kernel⟩
  refine ⟨h, rfl, rfl, ?_⟩
  have hrules : (scopeOver [dead]).rules = [] ++ .function _ _ _ :: ([_] ++ dead :: [_]) := rfl
  exact (shadowed_rule_dead h h rfl hrules declaringTerm _).mp hu

end ScopedRewriting
