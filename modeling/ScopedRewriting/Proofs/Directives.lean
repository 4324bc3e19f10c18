import ScopedRewriting.Proofs.Memory
import ScopedRewriting.Proofs.Scopes
import ScopedRewriting.Term.Subterm

/-!
# Directives do not survive

In a lexical scope the declaration rule is the last one to be tried, and the results of all other
rules are normal forms in lexical scopes again. So normal forms hold no directives, and as elements
are rewritten first, no directive is ever found in the place of a pattern (`no_directive_survives`).
-/

namespace ScopedRewriting

variable {π : Policy} {N : Normalization} {s : Scope} {t u : Term}

/-! ## Directive-free terms -/

theorem pattern_mem_of_directive? {ts : List Term} {d : Term.Directive}
    (h : (Term.seq ts).directive? = some d) : d.pattern ∈ ts := by
  have hd := Term.directive?_eq_some_iff.mp h
  simp only [Term.Directive.toTerm, Term.seq.injEq] at hd
  simp [hd]

mutual
/-- A directive-free term is a pattern. -/
theorem isSome_ofTerm? : (t : Term) → t.DirectiveFree → (Pattern.ofTerm? t).isSome
  | .atom a, _ => by simp [Pattern.ofTerm?]
  | .seq ts, h => by
      obtain ⟨hd, hts⟩ := Term.directiveFree_seq_iff.mp h
      simpa [Pattern.ofTerm?, hd] using isSome_ofTerms? ts hts

theorem isSome_ofTerms? : (ts : List Term) → (∀ t ∈ ts, t.DirectiveFree) →
    (Pattern.ofTerms? ts).isSome
  | [], _ => by simp [Pattern.ofTerms?]
  | t :: ts, h => by
      obtain ⟨p, hp⟩ := Option.isSome_iff_exists.mp (isSome_ofTerm? t (h t (by simp)))
      simpa [Pattern.ofTerms?, hp] using isSome_ofTerms? ts fun u hu => h u (by simp [hu])
end

/-! ## Reducing a term -/

/-- Elements are normal forms already, or the term is a normal form itself. -/
theorem Elementwise.elements_directiveFree (hN : ∀ t u, N s t u → u.DirectiveFree)
    (h : Elementwise N s t u) :
    u.DirectiveFree ∨ ∃ us, u = .seq us ∧ ∀ v ∈ us, v.DirectiveFree := by
  cases h with
  | atom a => exact .inl (Term.directiveFree_atom a)
  | @seq ts us hts =>
      have hus : ∀ v ∈ us, v.DirectiveFree := by
        intro v hv
        obtain ⟨t, _, htv⟩ := forall₂_mem_right hts hv
        exact hN t v htv
      refine Term.group_of (P := fun u =>
        u.DirectiveFree ∨ ∃ us, u = .seq us ∧ ∀ v ∈ us, v.DirectiveFree) ?_ ?_
      · exact fun v hv => .inl (hus v hv)
      · exact fun _ => .inr ⟨us, rfl, hus⟩

theorem Elementwise.isSome_ofTerm? (hN : ∀ t u, N s t u → u.DirectiveFree)
    (h : Elementwise N s t u) {d : Term.Directive} (hd : u.directive? = some d) :
    (Pattern.ofTerm? d.pattern).isSome := by
  rcases h.elements_directiveFree hN with hu | ⟨us, rfl, hus⟩
  · rw [hu u (.refl u)] at hd
    cases hd
  · exact ScopedRewriting.isSome_ofTerm? _ (hus _ (pattern_mem_of_directive? hd))

theorem Reduces.directiveFree (hN : ∀ s t u, N s t u → s.Lexical π → u.DirectiveFree)
    (hs : s.Lexical π) (h : Reduces π N s t u) : u.DirectiveFree := by
  cases h with
  | apply he hr =>
      obtain ⟨r, hm, hr⟩ := hr.exists_mem
      rcases hs.mem_rules hm with rfl | ⟨p, body, c, rfl, hc⟩
      · cases hr with
        | declare _ _ hu => exact hN _ _ _ hu (hs.declare _ _)
      · cases hr with
        | fire _ _ hv => exact hN _ _ _ hv hc
  | keep he hr =>
      have hN' : ∀ t u, N s t u → u.DirectiveFree := fun t u hu => hN s t u hu hs
      rcases he.elements_directiveFree hN' with hu | ⟨us, rfl, hus⟩
      · exact hu
      -- no rule applies, so the declaration rule does not
      · cases hr.none_of_mem _ hs.declaration_mem with
        | undirected hd => exact Term.directiveFree_seq_iff.mpr ⟨hd, hus⟩
        | refuse hd hp =>
            have hsome := he.isSome_ofTerm? hN' hd
            simp [hp] at hsome

theorem NormalForm.directiveFree (h : NormalForm π s t u) (hs : s.Lexical π) : u.DirectiveFree := by
  have hinduct := NormalForm.induct (P := fun s _ u => s.Lexical π → u.DirectiveFree)
    (fun s t u ht hs => ht.fixed.directiveFree (fun _ _ _ hu => hu.2) hs) h
  exact hinduct hs

/-! ## No warnings -/

/-- Where directives are declared, none is found in the place of a pattern. -/
theorem obeys_normalize_of_lexical (hs : s.Lexical π) (fuel : Nat) (t : Term) :
    Job.Obeys (.truthful π (fun e => ∀ p, e ≠ .directiveInPattern p) True) (NormalForm π s t)
      (normalize π fuel s t) := by
  refine obeys_normalize (G := fun s _ => s.Lexical π ∨ s.Replacing π) ?_ ?_ ?_ fuel (.inl hs)
  · rintro e he p rfl
    exact he rfl
  · refine invariant_of_scopes fun s t s' u hs hn => ?_
    rcases hs with hs | hs
    · exact (hs.needs hn).imp_right Scope.OfMatch.replacing
    · exact hs.needs hn ▸ .inr hs
  · intro s t t' hs he hm d hd hp
    rcases hs with hs | hs
    · have hsome := he.isSome_ofTerm? (fun t u hu => hu.directiveFree hs) hd
      simp [hp] at hsome
    · obtain ⟨a, u, ha⟩ := hs.mem_rules hm
      cases ha

/-! ## Terms that are evaluated to themselves -/

theorem normalForm_base_self (hd : t.DirectiveFree) (hc : t.Collapsed) :
    NormalForm π (.base π) t t := by
  induction t using Term.induct with
  | atom a =>
      refine normalForm_iff.mpr (.stop (.keep (.atom a) ?_))
      exact .there (.undirected rfl) .nil
  | seq ts ih =>
      obtain ⟨hdir, hts⟩ := Term.directiveFree_seq_iff.mp hd
      have he : Elementwise (NormalForm π) (.base π) (.seq ts) (.seq ts) := by
        refine (elementwise_seq_self_iff (hc ts (.refl _))).mpr fun t ht => ?_
        exact ih t ht (hts t ht) (hc.of_subterm (.element ht (.refl t)))
      exact normalForm_iff.mpr (.stop (.keep he (.there (.undirected hdir) .nil)))

/-- In a lexical scope, normal forms hold no directives, and no directive is ever refused because
there is one in its pattern. The terms that are evaluated to themselves are those without a
directive. -/
theorem no_directive_survives {engine : Engine} (h : engine.Filled π) :
    (∀ s (t u : Term), s.Lexical π → engine.Answers π (.normalize s t) u → u.DirectiveFree) ∧
    (∀ s t fuel p, s.Lexical π →
      .note (.directiveInPattern p) ∉ Job.requests (normalize π fuel s t) engine) ∧
    ∀ t : Term, t.Collapsed → (engine.Answers π (.evaluate t) t ↔ t.DirectiveFree) := by
  have hbase : (Scope.base π).Lexical π := .base
  refine ⟨fun s t u hs hu => ?_, fun s t fuel p hs hq => ?_, fun t hc => ?_⟩
  · exact (h.normalizes_iff.mp hu).directiveFree hs
  · have hobeys := obeys_normalize_of_lexical hs fuel t
    have hupholds := upholds_truthful π (fun e => ∀ p, e ≠ .directiveInPattern p) True engine.cache
    exact hobeys.permits_of_mem_requests hupholds ⟨h.sound, .refl _⟩ hq p rfl
  · constructor
    · intro ht
      exact NormalForm.directiveFree (h.normalizes_iff.mp ht) hbase
    · intro hd
      exact h.normalizes_iff.mpr (normalForm_base_self hd hc)

/-- `[f [x to y x]]`, where `to` may stand for the arrow. -/
private def hiddenDirective : Term :=
  .seq [.atom ⟨"f"⟩, .seq [.atom ⟨"x"⟩, .atom ⟨"to"⟩, .atom ⟨"y"⟩, .atom ⟨"x"⟩]]

/-- The base scope with the rule that makes an arrow of `to`. -/
private def arrowScope : Scope :=
  (Scope.base .standard).extend .standard
    (.function (.lit ⟨"to"⟩) (.atom .arrow) (.base .standard))

/-- A rule builds a directive, which is declared at once. -/
theorem no_directive_survives_built_by_rule :
    Engine.Filled .standard {} ∧ arrowScope.Lexical .standard ∧
    Engine.Answers .standard {} (.normalize arrowScope hiddenDirective)
      (.seq [.atom ⟨"f"⟩, .atom ⟨"y"⟩]) ∧
    Term.Collapsed (.seq [.atom ⟨"f"⟩, .atom ⟨"y"⟩]) ∧
    Engine.Answers .standard {} (.evaluate (.seq [.atom ⟨"f"⟩, .atom ⟨"y"⟩]))
      (.seq [.atom ⟨"f"⟩, .atom ⟨"y"⟩]) := by
  have h : Engine.Filled .standard {} := .fresh
  have hs : arrowScope.Lexical .standard := .declare _ _ .base
  have hy : Engine.Answers .standard {} (.normalize arrowScope hiddenDirective)
      (.seq [.atom ⟨"f"⟩, .atom ⟨"y"⟩]) :=
    h.normalizes_iff.mpr ⟨6, by decide +kernel⟩
  have hc : Term.Collapsed (.seq [.atom ⟨"f"⟩, .atom ⟨"y"⟩]) :=
    Term.collapsed_ofForm (.group [.word "f", .word "y"])
  have hd := (no_directive_survives h).1 arrowScope hiddenDirective _ hs hy
  exact ⟨h, hs, hy, hc, ((no_directive_survives h).2.2 _ hc).mpr hd⟩

end ScopedRewriting
