import ScopedRewriting.Proofs.Simulation

/-!
# Rules out of reach

Rewriting makes up no atoms. So a rule whose pattern demands an atom that neither the term nor the
body of any rule holds is never applied, and a scope rewrites the term alike with the rule and
without it (`unreachable_rule_inert`), although all rules that are declared on the way keep the rule
in their closures.
-/

namespace ScopedRewriting

variable {π : Policy} {x : Atom} {rs rs' : List Rule} {s : Scope}

theorem Term.hereditary_not_mem_atoms (x : Atom) : Hereditary fun t => x ∉ t.atoms := by
  simpa [List.forall_mem_ne'] using hereditary_atoms (· ≠ x)

/-- The rules on the right are those on the left with further rules put in, whose patterns hold the
atom. No body on the left holds it, and the same goes for closures. -/
inductive Rule.Padded (x : Atom) : List Rule → List Rule → Prop
  | nil : Rule.Padded x [] []
  | declaration {rs rs' : List Rule} : Rule.Padded x rs rs' →
      Rule.Padded x (.declaration :: rs) (.declaration :: rs')
  | function (p : Pattern) {body : Term} {c c' : Scope} {rs rs' : List Rule} : x ∉ body.atoms →
      Rule.Padded x c.rules c'.rules → Rule.Padded x rs rs' →
      Rule.Padded x (.function p body c :: rs) (.function p body c' :: rs')
  | unreachable {p : Pattern} (body : Term) (c : Scope) {rs rs' : List Rule} : x ∈ p.literals →
      Rule.Padded x rs rs' → Rule.Padded x rs (.function p body c :: rs')

namespace Rule

theorem Padded.follow {t : Term} (h : Padded x rs rs') (ht : x ∉ t.atoms) :
    Follow id (fun t => x ∉ t.atoms) (fun s s' => Padded x s.rules s'.rules) t rs rs' := by
  induction h with
  | nil => exact .nil
  | declaration _ ih => exact .both .declaration fun _ => ih
  | @function p body _ _ _ _ hbody hc _ _ ih =>
      refine .both ?_ fun _ => ih
      simpa using Like.function (f := id) p body hbody hc
  | @unreachable p body c _ _ hp _ ih =>
      have hnone : p.match? t = none := by
        refine Option.eq_none_iff_forall_ne_some.mpr fun b hb => ?_
        exact ht (Pattern.literal_mem_atoms p t hb hp)
      exact .idle body c (by simpa using hnone) ih

/-- In a lexical scope, closures hold no bodies other than those of the scope. -/
theorem padded_self (hs : s.Lexical π)
    (h : ∀ p body c, .function p body c ∈ s.rules → x ∉ body.atoms) :
    Padded x s.rules s.rules := by
  induction hs with
  | base => exact .declaration .nil
  | @declare s p body _ ih =>
      rw [Scope.rules_extend π (by simp)] at h ⊢
      have hs : Padded x s.rules s.rules := ih fun q body' c hm => h q body' c (by simp [hm])
      exact .function p (h p body s (by simp)) hs hs

end Rule

def Simulation.padding (π : Policy) (x : Atom) : Simulation π π id fun t => x ∉ t.atoms where
  Alike s s' := Rule.Padded x s.rules s'.rules
  follow h ht := h.follow ht
  declare p h hbody := by
    rw [Scope.rules_extend π (by simp), Scope.rules_extend π (by simp), Pattern.rename_id,
      Term.rename_id]
    exact .function p hbody h h

/-- A rule with a literal in its pattern that occurs neither in the term nor in the body of any rule
makes no difference, whatever its body and its closure are. -/
theorem unreachable_rule_inert {engine engine' : Engine} (h : engine.Filled π)
    (h' : engine'.Filled π) (hs : s.Lexical π) {p : Pattern} (hp : x ∈ p.literals) (body : Term)
    (c : Scope) {t : Term} (ht : x ∉ t.atoms)
    (hbodies : ∀ q body' c', .function q body' c' ∈ s.rules → x ∉ body'.atoms) (u : Term) :
    engine'.Answers π (.normalize (s.extend π (.function p body c)) t) u ↔
      engine.Answers π (.normalize s t) u := by
  have halike : (Simulation.padding π x).Alike s (s.extend π (.function p body c)) := by
    change Rule.Padded x s.rules (s.extend π (.function p body c)).rules
    rw [Scope.rules_extend π (by simp)]
    exact .unreachable body c hp (Rule.padded_self hs hbodies)
  have hiff := (Simulation.padding π x).normalForm_rename_iff (w := u) Atom.renaming_id
    (Term.hereditary_not_mem_atoms x) halike ht
  rw [h.normalizes_iff, h'.normalizes_iff]
  simpa using hiff

/-- The base scope with the rule from `[f 'x]` to `[g x]`. -/
private def wrapping : Scope :=
  (Scope.base .standard).extend .standard
    (.function (.seq [.lit ⟨"f"⟩, .var ⟨"x"⟩]) (.seq [.atom ⟨"g"⟩, .atom ⟨"x"⟩])
      (.base .standard))

/-- `[[h 'x] -> [f x] [h A]]` -/
private def wrappedTerm : Term :=
  .ofForm (.group [.group [.word "h", .quoted "x"], .word "->", .group [.word "f", .word "x"],
    .group [.word "h", .word "A"]])

/-- The rule from `['x k]` to `A` would match whatever has two elements, were there no `k`. It is in
the closure of the rule that is declared. -/
theorem unreachable_rule_inert_in_closure :
    let p := Pattern.seq [.var ⟨"x"⟩, .lit ⟨"k"⟩]
    Engine.Filled .standard {} ∧ wrapping.Lexical .standard ∧ Atom.mk "k" ∈ p.literals ∧
    Atom.mk "k" ∉ wrappedTerm.atoms ∧
    (∀ q body' c', .function q body' c' ∈ wrapping.rules → Atom.mk "k" ∉ body'.atoms) ∧
    Engine.Answers .standard {}
      (.normalize (wrapping.extend .standard (.function p (.atom ⟨"A"⟩) .nil)) wrappedTerm)
      (.seq [.atom ⟨"g"⟩, .atom ⟨"A"⟩]) := by
  intro p
  have h : Engine.Filled .standard {} := .fresh
  have hs : wrapping.Lexical .standard := .declare _ _ .base
  have hp : Atom.mk "k" ∈ p.literals := by decide +kernel
  have ht : Atom.mk "k" ∉ wrappedTerm.atoms := by decide +kernel
  have hbodies : ∀ q body' c', .function q body' c' ∈ wrapping.rules →
      Atom.mk "k" ∉ body'.atoms := by
    intro q body' c' hm
    have hbody : body' = .seq [.atom ⟨"g"⟩, .atom ⟨"x"⟩] := by
      have hrule : Rule.function q body' c' = .function (.seq [.lit ⟨"f"⟩, .var ⟨"x"⟩])
          (.seq [.atom ⟨"g"⟩, .atom ⟨"x"⟩]) (.base .standard) := by simpa [wrapping] using hm
      exact (Rule.function.inj hrule).2.1
    rw [hbody]
    decide +kernel
  have hu : Engine.Answers .standard {} (.normalize wrapping wrappedTerm)
      (.seq [.atom ⟨"g"⟩, .atom ⟨"A"⟩]) :=
    h.normalizes_iff.mpr ⟨8, by decide +kernel⟩
  exact ⟨h, hs, hp, ht, hbodies, (unreachable_rule_inert h h hs hp _ _ ht hbodies _).mpr hu⟩

end ScopedRewriting
