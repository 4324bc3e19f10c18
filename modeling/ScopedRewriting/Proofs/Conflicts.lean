import ScopedRewriting.Proofs.Chains

/-!
# Conflicts

Two chains conflict if some user-defined rules of theirs have equal patterns and are not equal. A
chain is never said to conflict with itself, though it may hold such rules, as a rule may shadow
another one. So the answer does not depend on the rules alone (`conflictsWith_iff`): an equal chain
that was built apart does conflict (`shadowed_rule_unnoticed`).
-/

namespace ScopedRewriting

/-- The rules are user-defined and have equal patterns, but are not equal. -/
def Rule.Conflict (r q : Rule) : Prop :=
  ∃ p t c u d, r = .function p t c ∧ q = .function p u d ∧ ¬ r.Alike q

def Scope.Conflict (s u : Scope) : Prop :=
  ∃ r ∈ s.rules, ∃ q ∈ u.rules, r.Conflict q

variable {π : Policy} {r q : Rule} {s u : Scope} {cs : List Chain} {n : Nat} {c d e : Chain}

theorem Rule.conflicts_iff (hr : Scope.HashedRule π r) (hq : Scope.HashedRule π q) :
    r.conflicts q ↔ r.Conflict q := by
  constructor
  · intro h
    cases r with
    | empty | declaration | subst _ _ => simp [conflicts, pattern?] at h
    | function p t c =>
        cases q with
        | empty | declaration | subst _ _ => simp [conflicts, pattern?] at h
        | function p' u d =>
            obtain ⟨rfl, hne⟩ : p = p' ∧ function p t c ≠ function p' u d := by
              simpa [conflicts, pattern?] using h
            exact ⟨p, t, c, u, d, rfl, rfl, (alike_iff_eq hr hq).not.mpr hne⟩
  · rintro ⟨p, t, c, u, d, rfl, rfl, h⟩
    have hne : function p t c ≠ function p u d := (alike_iff_eq hr hq).not.mp h
    simpa [conflicts, pattern?] using hne

theorem Rule.Conflict.symm (h : r.Conflict q) : q.Conflict r := by
  obtain ⟨p, t, c, u, d, rfl, rfl, h⟩ := h
  exact ⟨p, u, d, t, c, rfl, rfl, fun h' => h h'.symm⟩

theorem Scope.Conflict.symm (h : s.Conflict u) : u.Conflict s := by
  obtain ⟨r, hr, q, hq, h⟩ := h
  exact ⟨q, hq, r, hr, h.symm⟩

namespace Chain

variable {memory : Nat → Chain}

theorem LiesIn.conflictsWith_iff_ne (hc : LiesIn π memory n c)
    (hd : LiesIn π memory n d) : c.conflictsWith d ↔ c ≠ d ∧ c.scope.Conflict d.scope := by
  simp only [conflictsWith, Bool.and_eq_true, Bool.not_eq_true', Bool.eq_false_iff, ne_eq,
    hc.same_iff hd, List.any_eq_true, Scope.Conflict]
  refine and_congr_right fun _ => ?_
  constructor
  · rintro ⟨r, hr, q, hq, h⟩
    exact ⟨r, hr, q, hq, (Rule.conflicts_iff (hc.hashed.rule r hr) (hd.hashed.rule q hq)).mp h⟩
  · rintro ⟨r, hr, q, hq, h⟩
    exact ⟨r, hr, q, hq, (Rule.conflicts_iff (hc.hashed.rule r hr) (hd.hashed.rule q hq)).mpr h⟩

theorem LiesIn.conflictsWith_comm (hc : LiesIn π memory n c) (hd : LiesIn π memory n d) :
    c.conflictsWith d = d.conflictsWith c := by
  rw [Bool.eq_iff_iff, hc.conflictsWith_iff_ne hd, hd.conflictsWith_iff_ne hc]
  exact and_congr ne_comm ⟨.symm, .symm⟩

/-- What an equal chain answers differs only if just one of the two is the other side. -/
theorem LiesIn.conflictsWith_congr (he : LiesIn π memory n e) (hc : LiesIn π memory n c)
    (hd : LiesIn π memory n d) (heq : e.scope = c.scope) :
    e.conflictsWith d = c.conflictsWith d ↔
      e.same d = c.same d ∨ ¬ c.scope.Conflict c.scope := by
  simp only [Bool.eq_iff_iff, he.conflictsWith_iff_ne hd, hc.conflictsWith_iff_ne hd,
    he.same_iff hd, hc.same_iff hd, heq]
  by_cases hed : e = d
  · subst hed
    by_cases hce : c = e
    · simp [hce]
    · simp [hce, heq]
  · by_cases hcd : c = d
    · subst hcd
      simp [hed]
    · simp [hed, hcd]

/-- Chains conflict if they are not the same and hold user-defined rules with equal patterns that
are not equal. So such rules are enough, unless they stand in one chain that is both sides. The
answer is symmetric. If an equal chain takes the place of one side, the answer stays unless there
are such rules in the chain and just one of the two chains is the other side. -/
theorem conflictsWith_iff (h : Built π cs n) (hc : c ∈ cs) (hd : d ∈ cs) :
    (c.conflictsWith d ↔ ¬ c.same d ∧ c.scope.Conflict d.scope) ∧
    ((c.conflictsWith d ↔ c.scope.Conflict d.scope) ↔
      ¬ (c.same d ∧ c.scope.Conflict c.scope)) ∧
    c.conflictsWith d = d.conflictsWith c ∧
    ∀ e ∈ cs, (e.beq c ↔ e.scope.Alike c.scope) ∧
      (e.beq c → (e.conflictsWith d = c.conflictsWith d ↔
        e.same d = c.same d ∨ ¬ c.scope.Conflict c.scope)) := by
  obtain ⟨memory, hlies⟩ := h.exists_liesIn
  have hcd := (hlies c hc).conflictsWith_iff_ne (hlies d hd)
  have hsame := (hlies c hc).same_iff (hlies d hd)
  refine ⟨by rw [hcd, hsame], ?_, (hlies c hc).conflictsWith_comm (hlies d hd), fun e he => ?_⟩
  · rw [hcd, hsame]
    by_cases heq : c = d
    · simp [heq]
    · simp [heq]
  · have hbeq := (hlies e he).beq_iff (hlies c hc)
    rw [Scope.alike_iff_eq (hlies e he).hashed (hlies c hc).hashed]
    exact ⟨hbeq, fun heq =>
      (hlies e he).conflictsWith_congr (hlies c hc) (hlies d hd) (hbeq.mp heq)⟩

/-- The rule `[f 'x] -> body`, declared in the base scope. -/
private def fRule (body : String) : Rule :=
  .function (.seq [.lit ⟨"f"⟩, .var ⟨"x"⟩]) (.atom ⟨body⟩) (.base .standard)

/-- The base chain and a rule that another one shadows, in links with the given mark and the next
one. -/
private def shadowing (mark : Nat) : Chain :=
  ((Chain.base .standard 0).extend .standard mark (fRule "x")).extend .standard (mark + 1)
    (fRule "A")

private theorem built_shadowing (h : Built .standard cs n) (hbase : .base .standard 0 ∈ cs) :
    ∃ cs', Built .standard cs' (n + 2) ∧ shadowing n ∈ cs' ∧ ∀ d ∈ cs, d ∈ cs' := by
  have hclosure : ∀ s ∈ (fRule "x").closure?, ∃ d ∈ cs, d.scope = s := by
    rintro _ ⟨⟩
    exact ⟨.base .standard 0, hbase, rfl⟩
  have hfirst := h.extend hbase hclosure
  have hsecond := hfirst.extend (r := fRule "A") List.mem_cons_self fun s hs => by
    obtain ⟨d, hd, hscope⟩ := hclosure s hs
    exact ⟨d, List.mem_cons_of_mem _ hd, hscope⟩
  exact ⟨_, hsecond, List.mem_cons_self, fun d hd => by simp [hd]⟩

private theorem exists_built_shadowing :
    ∃ cs, Built .standard cs 5 ∧ shadowing 1 ∈ cs ∧ shadowing 3 ∈ cs := by
  have hbase : Built .standard [.base .standard 0, .empty] 1 :=
    .extend (r := .declaration) (.empty .nothing) List.mem_cons_self nofun
  obtain ⟨cs₁, h₁, hfirst, hkeep⟩ := built_shadowing hbase List.mem_cons_self
  obtain ⟨cs₂, h₂, hsecond, hkeep'⟩ := built_shadowing h₁ (hkeep _ List.mem_cons_self)
  exact ⟨cs₂, h₂, hkeep' _ hfirst, hsecond⟩

private theorem conflict_shadowing (m k : Nat) :
    (shadowing m).scope.Conflict (shadowing k).scope := by
  refine ⟨fRule "x", .tail _ (.head _), fRule "A", .head _, _, _, _, _, _, rfl, rfl, fun h => ?_⟩
  have hrule (body : String) : Scope.HashedRule .standard (fRule body) :=
    .function _ _ (Scope.Lexical.base).hashed
  have heq := (Rule.alike_iff_eq (hrule "x") (hrule "A")).mp h
  exact absurd (Rule.function.inj heq).2.1 (by decide)

/-- A chain in which a rule is shadowed conflicts with a chain that is built in the same way, from
either side. -/
theorem conflictsWith_iff_shadowing :
    ∃ cs, Built .standard cs 5 ∧ shadowing 1 ∈ cs ∧ shadowing 3 ∈ cs ∧
      (shadowing 1).conflictsWith (shadowing 3) ∧ (shadowing 3).conflictsWith (shadowing 1) := by
  obtain ⟨cs, h, hc, hd⟩ := exists_built_shadowing
  obtain ⟨hiff, -, hcomm, -⟩ := conflictsWith_iff h hc hd
  have hconflict := hiff.mpr ⟨by simp [same, shadowing, extend, fRule], conflict_shadowing 1 3⟩
  exact ⟨cs, h, hc, hd, hconflict, hcomm ▸ hconflict⟩

/-- The chain in which the rule is shadowed does not conflict with itself, but an equal chain, which
was built apart, does conflict with it. -/
theorem shadowed_rule_unnoticed :
    ∃ cs, Built .standard cs 5 ∧ shadowing 1 ∈ cs ∧ shadowing 3 ∈ cs ∧
      (shadowing 3).beq (shadowing 1) ∧
      (shadowing 1).scope.Conflict (shadowing 1).scope ∧
      (shadowing 1).conflictsWith (shadowing 1) = false ∧
      (shadowing 3).conflictsWith (shadowing 1) = true := by
  obtain ⟨cs, h, hc, he⟩ := exists_built_shadowing
  obtain ⟨memory, hlies⟩ := h.exists_liesIn
  refine ⟨cs, h, hc, he, ((hlies _ he).beq_iff (hlies _ hc)).mpr rfl, conflict_shadowing 1 1,
    by simp [conflictsWith, same], ?_⟩
  refine ((hlies _ he).conflictsWith_iff_ne (hlies _ hc)).mpr
    ⟨fun heq => ?_, conflict_shadowing 3 1⟩
  exact absurd (congrArg Chain.marks heq) (by decide)

end Chain

end ScopedRewriting
