import ScopedRewriting.Proofs.Memory
import ScopedRewriting.Proofs.Scopes

/-!
# Scoping is lexical

Whatever is evaluated, terms are brought to normal form in lexical scopes and in the scopes of
matches only (`scoping_lexical`). This does not depend on what is recalled: a rule leads to the
scope that it declares, the scope of its match or its closure, whatever the terms are.
-/

namespace ScopedRewriting

variable {π : Policy} {s : Scope}

/-! ## The rules of a scope -/

namespace Scope

theorem Lexical.rules_eq (h : Lexical π s) :
    ∃ rs, s.rules = rs ++ [.declaration] ∧ ∀ r ∈ rs, r.pattern?.isSome := by
  induction h with
  | base => exact ⟨[], rfl, by simp⟩
  | @declare s p body _ ih =>
      obtain ⟨rs, hrs, hp⟩ := ih
      refine ⟨.function p body s :: rs, by simp [hrs], fun r hr => ?_⟩
      rcases List.mem_cons.mp hr with rfl | hr
      · rfl
      · exact hp r hr

/-- The closure of a rule holds the rules that are older than the rule. -/
theorem Lexical.closure (h : Lexical π s) {newer older : List Rule} {p : Pattern} {body : Term}
    {c : Scope} (hs : s.rules = newer ++ .function p body c :: older) :
    Lexical π c ∧ c.rules = older := by
  induction h generalizing newer with
  | base => cases newer <;> simp at hs
  | @declare s p' body' h ih =>
      rw [rules_extend π (by simp)] at hs
      cases newer with
      | nil =>
          cases hs
          exact ⟨h, rfl⟩
      | cons r newer => exact ih (List.cons.inj hs).2

theorem OfMatch.rules_eq (h : OfMatch π s) :
    ∃ es : Entries, s.rules = es.map (fun e => .subst e.1 e.2) ∧ (es.map Prod.fst).Nodup := by
  cases h with
  | @intro _ _ _ _ _ b _ _ _ =>
      refine ⟨(π.arrange b).reverse, by rw [rules_ofBindings, List.map_reverse], ?_⟩
      have hperm : (π.arrange b).reverse.Perm b.entries :=
        (List.reverse_perm _).trans (π.arrange_perm b)
      rw [(hperm.map Prod.fst).nodup_iff, List.Nodup, List.pairwise_map]
      refine b.ascending.imp fun hlt heq => ?_
      rw [heq] at hlt
      exact String.lt_irrefl _ hlt

theorem Lexical.not_ofMatch (h : Lexical π s) : ¬ OfMatch π s :=
  fun hm => h.not_replacing π hm.replacing

def Regular (π : Policy) (s : Scope) : Prop :=
  s.Lexical π ∨ s.OfMatch π

theorem invariant_regular (N : Normalization) : Invariant π N fun s _ => Regular π s := by
  refine invariant_of_scopes fun s t s' u h hn => ?_
  rcases h with h | h
  · exact h.needs hn
  · exact h.replacing.needs hn ▸ .inr h

end Scope

/-! ## Jobs that keep to scopes -/

/-- Normal forms are asked for and memorized only for scopes that `G` holds of. -/
def Contract.confined (G : Scope → Prop) : Contract where
  permits
    | .recall s _ | .memorize s _ _ => G s
    | _ => True
  expects _ _ := True
  tires := True

theorem Contract.confined_lenient (G : Scope → Prop) : (confined G).Lenient where
  intern _ := trivial
  note _ _ := trivial

def Cache.Confined (G : Scope → Prop) (c : Cache) : Prop :=
  ∀ s t n, c.get? s t = some n → G s

theorem Cache.Confined.insert {G : Scope → Prop} {c : Cache} (hc : c.Confined G) (hs : G s)
    (t n : Term) : (c.insert s t n).Confined G := by
  intro s' t' n' h
  rw [get?_insert] at h
  split at h
  · next heq => exact heq.1 ▸ hs
  · exact hc s' t' n' h

theorem upholds_confined (G : Scope → Prop) :
    Job.Upholds (.confined G) fun engine => engine.cache.Confined G := by
  intro engine q h hq
  refine ⟨trivial, ?_⟩
  match q, hq with
  | .memorize s t n, hs => exact h.insert hs t n
  | .note e, _ =>
      simp only [Engine.serve, Engine.cache_note]
      exact h
  | .recall .., _ | .intern _, _ | .cacheSize, _ => exact h

theorem confined_normalize (fuel : Nat) (hs : s.Regular π) (t : Term) :
    Job.Obeys (.confined (Scope.Regular π)) (fun _ => True) (normalize π fuel s t) := by
  refine Contract.obeys_normalize (N := fun _ _ _ => True) (Contract.confined_lenient _) trivial
    (Scope.invariant_regular _) ?_ ?_ ?_ ?_ fuel hs
  · exact fun _ _ hs => hs
  · exact fun _ _ _ _ _ => trivial
  · exact fun _ _ _ hs _ => ⟨hs, trivial⟩
  · exact fun _ _ _ _ _ _ _ _ _ => trivial

/-! ## Evaluations -/

/-- The call brings a term or a text to normal form in the base scope. -/
inductive Call.IsEvaluation : Call → Prop
  | evaluate (t : Term) : IsEvaluation (.evaluate t)
  | evaluateText (text : String) : IsEvaluation (.evaluateText text)

/-- The engine has evaluated terms and texts only. -/
inductive Engine.Evaluated (π : Policy) : Engine → Prop
  | fresh : Evaluated π {}
  | call {engine : Engine} {c : Call} (fuel : Nat) : c.IsEvaluation → Evaluated π engine →
      Evaluated π ((c.job π fuel).run engine).2

theorem confined_evaluation {c : Call} (h : c.IsEvaluation) (fuel : Nat) :
    (c.job π fuel).Obeys (.confined (Scope.Regular π)) fun _ => True := by
  have hbase : (Scope.base π).Regular π := .inl .base
  let J := (Contract.confined (Scope.Regular π)).judgement (Contract.confined_lenient _) trivial
  cases h with
  | evaluate t => exact confined_normalize fuel hbase t
  | evaluateText text =>
      change J.Holds (fun _ => True) (evaluateText π fuel text)
      unfold evaluateText
      cases Form.parse text with
      | error e => exact J.pure trivial
      | ok f =>
          refine J.bind (Judgement.share f) fun t _ => ?_
          exact J.bind (confined_normalize fuel hbase t) fun u _ => J.pure trivial

theorem Engine.Evaluated.filled {engine : Engine} (h : engine.Evaluated π) : engine.Filled π := by
  induction h with
  | fresh => exact .fresh
  | call fuel _ _ ih => exact .call fuel _ ih

theorem Engine.Evaluated.confined {engine : Engine} (h : engine.Evaluated π) :
    engine.cache.Confined (Scope.Regular π) := by
  induction h with
  | fresh =>
      intro s t n hn
      exact absurd hn (by simp)
  | call fuel hc _ ih => exact (confined_evaluation hc fuel).run_keeps (upholds_confined _) ih

/-- Terms are brought to normal form, and normal forms are kept, for lexical scopes and the scopes
of matches only, which never are the same. A lexical scope has user-defined rules before the
declaration rule, each with the older rules as its closure, in which its result comes to normal
form. The scope of a match replaces each variable once. -/
theorem scoping_lexical {engine : Engine} (h : engine.Evaluated π) :
    (∀ (c : Call) (fuel : Nat) (s : Scope) (t : Term), c.IsEvaluation →
      .recall s t ∈ (c.job π fuel).requests engine → s.Lexical π ∨ s.OfMatch π) ∧
    (∀ s t n, engine.cache.get? s t = some n → s.Lexical π ∨ s.OfMatch π) ∧
    (∀ s : Scope, s.Lexical π → ¬ s.OfMatch π ∧
      (∃ rs, s.rules = rs ++ [.declaration] ∧ ∀ r ∈ rs, r.pattern?.isSome) ∧
      ∀ newer p body c older, s.rules = newer ++ .function p body c :: older →
        c.Lexical π ∧ c.rules = older ∧ c.size < s.size ∧
        ∀ t b, p.match? t = some b → ∀ u? : Option Term,
          engine.Answers π (.apply (.function p body c) s t) u? ↔
            ∃ v u : Term, engine.Answers π (.normalize (.ofBindings π b) body) v ∧
              engine.Answers π (.normalize c v) u ∧ u? = some u) ∧
    ∀ s : Scope, s.OfMatch π →
      ∃ es : Entries, s.rules = es.map (fun e => .subst e.1 e.2) ∧ (es.map Prod.fst).Nodup := by
  refine ⟨fun c fuel s t hc hq => ?_, h.confined, fun s hs => ?_, fun s hs => hs.rules_eq⟩
  · exact (confined_evaluation hc fuel).permits_of_mem_requests (upholds_confined _) h.confined hq
  · refine ⟨hs.not_ofMatch, hs.rules_eq, fun newer p body c older heq => ?_⟩
    obtain ⟨hc, rfl⟩ := hs.closure heq
    refine ⟨hc, rfl, ?_, fun t b hm u? => ?_⟩
    · rw [Scope.size, Scope.size, heq, List.length_append, List.length_cons]
      omega
    · simp only [h.filled.applies_iff, h.filled.normalizes_iff, applies_function_iff hm]

/-- The base scope with the rule from `A` to `B`. -/
private def outerScope : Scope :=
  (Scope.base .standard).extend .standard
    (.function (.lit ⟨"A"⟩) (.atom ⟨"B"⟩) (.base .standard))

/-- Below it, every term becomes `A`. -/
private def innerScope : Scope :=
  outerScope.extend .standard (.function (.var ⟨"x"⟩) (.atom ⟨"A"⟩) outerScope)

/-- The engine has evaluated `C` and evaluates `A`. -/
theorem scoping_lexical_nested : ∃ engine : Engine, engine.Evaluated .standard ∧
    (Call.evaluate (.atom ⟨"A"⟩)).IsEvaluation ∧
    .recall (.base .standard) (.atom ⟨"A"⟩) ∈
      ((Call.evaluate (.atom ⟨"A"⟩)).job .standard 3).requests engine ∧
    ((Scope.base .standard).Lexical .standard ∨ (Scope.base .standard).OfMatch .standard) ∧
    innerScope.Lexical .standard ∧
    innerScope.rules = [] ++ .function (.var ⟨"x"⟩) (.atom ⟨"A"⟩) outerScope :: outerScope.rules ∧
    outerScope.size < innerScope.size := by
  have h : Engine.Evaluated .standard (((Call.evaluate (.atom ⟨"C"⟩)).job .standard 3).run {}).2 :=
    .call 3 (.evaluate _) .fresh
  have hc : (Call.evaluate (.atom ⟨"A"⟩)).IsEvaluation := .evaluate _
  have hq : .recall (.base .standard) (.atom ⟨"A"⟩) ∈
      ((Call.evaluate (.atom ⟨"A"⟩)).job .standard 3).requests
        (((Call.evaluate (.atom ⟨"C"⟩)).job .standard 3).run {}).2 :=
    List.mem_cons_self
  have hs : innerScope.Lexical .standard := (Scope.Lexical.base.declare _ _).declare _ _
  obtain ⟨hrequests, _, hshape, _⟩ := scoping_lexical h
  exact ⟨_, h, hc, hq, hrequests _ 3 _ _ hc hq, hs, rfl, ((hshape _ hs).2.2 [] _ _ _ _ rfl).2.2.1⟩

end ScopedRewriting
