import ScopedRewriting.Proofs.Directives
import ScopedRewriting.Proofs.Requests
import ScopedRewriting.Proofs.Scoping
import ScopedRewriting.Proofs.Substitution
import ScopedRewriting.Proofs.Vocabulary

/-!
# Nested declarations

Where declarations are nested, the innermost one is evaluated first, and all that its surroundings
see of it is what its subject has come to. So the rules are in force one after the other and never
together: what the run asks for, it asks for in the base scope or in one of the stages
(`nested_declarations_staged`).
-/

namespace ScopedRewriting

/-- No part of the term is a directive or a sequence of a single element. -/
structure Term.Plain (t : Term) : Prop where
  directiveFree : t.DirectiveFree
  collapsed : t.Collapsed

/-- A directive without its subject. -/
structure Term.Declaration where
  pattern : Term
  replacement : Term

def Term.Declaration.around (d : Declaration) (subject : Term) : Term :=
  Directive.toTerm ⟨d.pattern, d.replacement, subject⟩

/-- The declarations around the subject, the first one being the outermost. -/
def Term.declaring (ds : List Declaration) (subject : Term) : Term :=
  ds.foldr Declaration.around subject

/-- The base scope with a single rule, declared in the base scope. -/
def Scope.ofRule (π : Policy) (p : Pattern) (body : Term) : Scope :=
  (base π).extend π (.function p body (.base π))

/-- The subject goes through the scopes of the declared rules, one after the other, beginning with
the innermost declaration. -/
inductive Staged (π : Policy) (N : Normalization) (subject : Term) :
    List Term.Declaration → Term → Prop
  | nil : Staged π N subject [] subject
  | cons {d : Term.Declaration} {ds : List Term.Declaration} {p : Pattern} {u v : Term} :
      Staged π N subject ds u → Pattern.ofTerm? d.pattern = some p →
      N (.ofRule π p d.replacement) u v → Staged π N subject (d :: ds) v

/-- In the scope `s`, the stage of one of the declarations begins with `u`. -/
inductive StageBegins (π : Policy) (N : Normalization) (subject : Term) :
    List Term.Declaration → Scope → Term → Prop
  | here {d : Term.Declaration} {ds : List Term.Declaration} {p : Pattern} {u : Term} :
      Staged π N subject ds u → Pattern.ofTerm? d.pattern = some p →
      StageBegins π N subject (d :: ds) (.ofRule π p d.replacement) u
  | there {d : Term.Declaration} {ds : List Term.Declaration} {s : Scope} {u : Term} :
      StageBegins π N subject ds s u → StageBegins π N subject (d :: ds) s u

/-- The normal form of `u` in `s` is asked for in the base scope or in the course of a stage. -/
def AskedInStages (π : Policy) (N : Normalization) (subject : Term) (ds : List Term.Declaration)
    (s : Scope) (u : Term) : Prop :=
  s = .base π ∨ ∃ s' w, StageBegins π N subject ds s' w ∧ (Call.normalize s' w).Asks π s u

/-- The arrow does not occur in the term, so no directive comes of it. -/
def Term.ArrowFree (t : Term) : Prop :=
  ∀ a ∈ t.atoms, a ≠ .arrow

/-- The rules that are declared in the base scope by the declarations. -/
def Term.Declaration.rules (π : Policy) (ds : List Declaration) : List Rule :=
  ds.filterMap fun d => (Pattern.ofTerm? d.pattern).map fun p => .function p d.replacement (.base π)

variable {π : Policy} {s : Scope} {t u v : Term} {p : Pattern} {body : Term}

/-! ## Scopes of single rules -/

@[simp]
theorem Scope.rules_ofRule (π : Policy) (p : Pattern) (body : Term) :
    (ofRule π p body).rules = [.function p body (.base π), .declaration] := rfl

theorem Scope.lexical_ofRule : (ofRule π p body).Lexical π :=
  .declare p body .base

theorem Scope.supplies_ofRule {P : Term → Prop} (h : P body) : (ofRule π p body).Supplies P :=
  supplies_base.extend (.function p h supplies_base)

/-! ## Plain terms -/

theorem Term.plain_atom (a : Atom) : (atom a).Plain :=
  ⟨directiveFree_atom a, collapsed_atom a⟩

theorem Term.directive?_eq_none_of_length {ts : List Term} (h : ts.length ≠ 4) :
    (seq ts).directive? = none := by
  cases hd : (seq ts).directive? with
  | none => rfl
  | some d =>
      cases directive?_eq_some_iff.mp hd
      exact absurd rfl h

theorem Term.plain_seq {ts : List Term} (hlen : ts.length ≠ 1) (hlen' : ts.length ≠ 4)
    (hts : ∀ t ∈ ts, t.Plain) : (seq ts).Plain where
  directiveFree := by
    have hd : (seq ts).directive? = none := directive?_eq_none_of_length hlen'
    exact directiveFree_seq_iff.mpr ⟨hd, fun t ht => (hts t ht).directiveFree⟩
  collapsed := collapsed_seq_iff.mpr ⟨hlen, fun t ht => (hts t ht).collapsed⟩

theorem Term.Plain.normalForm (h : t.Plain) : NormalForm π (.base π) t t :=
  normalForm_base_self h.directiveFree h.collapsed

theorem Term.Plain.normalForm_iff (h : t.Plain) : NormalForm π (.base π) t u ↔ u = t := by
  constructor
  · exact fun hu => hu.unique h.normalForm
  · rintro rfl
    exact h.normalForm

theorem Term.Plain.elements {ts : List Term} (h : (seq ts).Plain) : ∀ t ∈ ts, t.Plain := by
  obtain ⟨_, hd⟩ := directiveFree_seq_iff.mp h.directiveFree
  obtain ⟨_, hc⟩ := collapsed_seq_iff.mp h.collapsed
  exact fun t ht => ⟨hd t ht, hc t ht⟩

theorem Term.Plain.eq_of_elementwise (h : t.Plain) (hu : Elementwise (NormalForm π) (.base π) t u) :
    u = t := by
  cases t with
  | atom a =>
      cases hu
      rfl
  | seq ts =>
      have hself : Elementwise (NormalForm π) (.base π) (seq ts) (seq ts) :=
        (elementwise_seq_self_iff (collapsed_seq_iff.mp h.collapsed).1).mpr fun t ht =>
          (h.elements t ht).normalForm
      exact hu.unique hself

theorem Rule.not_needs_declaration {N : Normalization} {s' : Scope} (h : t.directive? = none) :
    ¬ Rule.declaration.Needs π N s t s' u := by
  rintro ⟨hd, _⟩
  cases h.symm.trans hd

theorem Term.Plain.directive?_eq_none (h : t.Plain) : t.directive? = none :=
  h.directiveFree t (.refl t)

/-- In the base scope, plain terms need no other scope. -/
theorem invariant_plain : Invariant π (NormalForm π) fun s t => s = .base π ∧ t.Plain where
  needs := by
    rintro s s' t u ⟨rfl, ht⟩ hn
    cases hn with
    | element hu => exact ⟨rfl, ht.elements u hu⟩
    | rule he hr hn =>
        cases ht.eq_of_elementwise he
        cases List.mem_singleton.mp hr
        exact absurd hn (Rule.not_needs_declaration ht.directive?_eq_none)
  reduces := by
    rintro s t u ⟨rfl, ht⟩ hu
    cases hu with
    | apply he hrule =>
        cases ht.eq_of_elementwise he
        obtain ⟨r, hr, hrule⟩ := hrule.exists_mem
        cases List.mem_singleton.mp hr
        cases hrule with
        | declare hd _ _ => cases ht.directive?_eq_none.symm.trans hd
    | keep he _ =>
        cases ht.eq_of_elementwise he
        exact ⟨rfl, ht⟩

theorem NormalForm.plain (h : NormalForm π s t u) (hs : s.Lexical π)
    (hsupplies : s.Supplies Term.Collapsed) (ht : t.Collapsed) : u.Plain :=
  ⟨h.directiveFree hs, h.hereditary Term.hereditary_collapsed hsupplies ht⟩

/-! ## Sequences where a single rule is in force -/

theorem normalForm_ofRule_atom {ps : List Pattern} (a : Atom) :
    NormalForm π (.ofRule π (.seq ps) body) (.atom a) (.atom a) := by
  refine normalForm_iff.mpr (.stop (.keep (.atom a) ?_))
  exact .there (.mismatch rfl) (.there (.undirected rfl) .nil)

theorem normalForm_ofRule_of_mismatch {ts us : List Term}
    (hts : List.Forall₂ (NormalForm π (.ofRule π p body)) ts us) (hlen : us.length ≠ 1)
    (hlen' : us.length ≠ 4) (hm : p.match? (.seq us) = none) :
    NormalForm π (.ofRule π p body) (.seq ts) (.seq us) := by
  have hnone : AppliesFirst π (NormalForm π) (.ofRule π p body) (.seq us)
      (Scope.ofRule π p body).rules none :=
    .there (.mismatch hm) (.there (.undirected (Term.directive?_eq_none_of_length hlen')) .nil)
  have hself : Elementwise (NormalForm π) (.ofRule π p body) (.seq us) (.seq us) := by
    refine (elementwise_seq_self_iff hlen).mpr fun u hu => ?_
    obtain ⟨t, _, htu⟩ := forall₂_mem_right hts hu
    exact htu.self
  exact .of_reduces (.keep (.seq_of_length hts hlen) hnone)
    (normalForm_iff.mpr (.stop (.keep hself hnone)))

/-- If the rule matches the sequence of the rewritten elements and nothing is left to be replaced in
what its body comes to, rewriting goes on with that. -/
theorem normalForm_ofRule_of_match {ts us : List Term} {b : Bindings}
    (hts : List.Forall₂ (NormalForm π (.ofRule π p body)) ts us) (hlen : us.length ≠ 1)
    (hm : p.match? (.seq us) = some b) (hfinal : (body.substitute b).Final b)
    (hplain : (body.substitute b).Plain)
    (hv : NormalForm π (.ofRule π p body) (body.substitute b) v) :
    NormalForm π (.ofRule π p body) (.seq ts) v := by
  have hbody : NormalForm π (.ofBindings π b) body (body.substitute b) :=
    normalForm_substitute hfinal
  exact .of_reduces (.apply (.seq_of_length hts hlen) (.here (.fire hm hbody hplain.normalForm))) hv

/-! ## A single declaration -/

theorem Term.Declaration.directive?_around (d : Declaration) (t : Term) :
    (d.around t).directive? = some ⟨d.pattern, d.replacement, t⟩ :=
  directive?_eq_some_iff.mpr rfl

theorem elementwise_directive_iff {d : Term.Declaration} (hp : d.pattern.Plain)
    (hr : d.replacement.Plain) : Elementwise (NormalForm π) (.base π) (d.around t) v ↔
      ∃ u, NormalForm π (.base π) t u ∧ v = d.around u := by
  have harrow : (Term.atom .arrow).Plain := Term.plain_atom _
  simp [Term.Declaration.around, Term.Directive.toTerm, elementwise_seq_iff,
    List.forall₂_cons_left_iff, hp.normalForm_iff, hr.normalForm_iff, harrow.normalForm_iff,
    Term.group]

theorem reduces_directive_iff {d : Term.Declaration} (hp : d.pattern.Plain)
    (hr : d.replacement.Plain) (hpattern : Pattern.ofTerm? d.pattern = some p) :
    Reduces π (NormalForm π) (.base π) (d.around t) v ↔
      ∃ u, NormalForm π (.base π) t u ∧ NormalForm π (.ofRule π p d.replacement) u v := by
  constructor
  · intro h
    cases h with
    | apply he hrule =>
        obtain ⟨u, hu, rfl⟩ := (elementwise_directive_iff hp hr).mp he
        obtain ⟨r, hm, hrule⟩ := hrule.exists_mem
        cases List.mem_singleton.mp hm
        cases hrule with
        | declare hd hpattern' hv =>
            cases (d.directive?_around u).symm.trans hd
            cases hpattern.symm.trans hpattern'
            exact ⟨u, hu, hv⟩
    | keep he hrule =>
        obtain ⟨u, _, rfl⟩ := (elementwise_directive_iff hp hr).mp he
        cases hrule.none_of_mem .declaration (by simp) with
        | undirected hd => cases (d.directive?_around u).symm.trans hd
        | refuse hd hnone =>
            cases (d.directive?_around u).symm.trans hd
            cases hpattern.symm.trans hnone
  · rintro ⟨u, hu, hv⟩
    refine .apply ((elementwise_directive_iff hp hr).mpr ⟨u, hu, rfl⟩) (.here ?_)
    exact .declare (d.directive?_around u) hpattern hv

/-- What a declaration is reduced to is not a directive again. -/
theorem Reduces.plain_of_directive {d : Term.Declaration} (hp : d.pattern.Plain)
    (hr : d.replacement.Plain) (hpattern : Pattern.ofTerm? d.pattern = some p) (ht : t.Collapsed)
    (h : Reduces π (NormalForm π) (.base π) (d.around t) v) : v.Plain := by
  obtain ⟨u, hu, hv⟩ := (reduces_directive_iff hp hr hpattern).mp h
  have hc : u.Collapsed := (hu.plain .base Scope.supplies_base ht).collapsed
  exact hv.plain Scope.lexical_ofRule (Scope.supplies_ofRule hr.collapsed) hc

/-- A declaration is evaluated by bringing its subject to normal form, first in the base scope, then
with the declared rule. -/
theorem normalForm_directive_iff {d : Term.Declaration} (hp : d.pattern.Plain)
    (hr : d.replacement.Plain) (ht : t.Collapsed) :
    NormalForm π (.base π) (d.around t) v ↔
      ∃ u p, NormalForm π (.base π) t u ∧ Pattern.ofTerm? d.pattern = some p ∧
        NormalForm π (.ofRule π p d.replacement) u v := by
  obtain ⟨p, hpattern⟩ := Option.isSome_iff_exists.mp (isSome_ofTerm? _ hp.directiveFree)
  have hplain {v : Term} (h : Reduces π (NormalForm π) (.base π) (d.around t) v) : v.Plain :=
    h.plain_of_directive hp hr hpattern ht
  constructor
  · intro h
    cases normalForm_iff.mp h with
    | stop hstep =>
        obtain ⟨u, hu, hv⟩ := (reduces_directive_iff hp hr hpattern).mp hstep
        exact ⟨u, p, hu, hpattern, hv⟩
    | go hstep _ hn =>
        obtain ⟨u, hu, hv⟩ := (reduces_directive_iff hp hr hpattern).mp hstep
        cases (hplain hstep).normalForm_iff.mp (normalForm_iff.mpr hn)
        exact ⟨u, p, hu, hpattern, hv⟩
  · rintro ⟨u, p', hu, hpattern', hv⟩
    cases hpattern.symm.trans hpattern'
    have hstep := (reduces_directive_iff hp hr hpattern).mpr ⟨u, hu, hv⟩
    exact .of_reduces hstep (hplain hstep).normalForm

theorem asking_plain {Q : Scope → Term → Prop} (hbase : ∀ u, Q (.base π) u) (ht : t.Plain)
    (fuel : Nat) :
    (asking π Q).Holds (NormalForm π (.base π) t) (normalize π fuel (.base π) t) :=
  asking_normalize invariant_plain (fun _ u h => h.1 ▸ hbase u) fuel ⟨rfl, ht⟩

/-- What the run of a declaration asks for, it asks for in the base scope, on the way to the normal
form of the subject there, or in the stage with the declared rule. -/
theorem asking_directive {Q : Scope → Term → Prop} {d : Term.Declaration} (hp : d.pattern.Plain)
    (hr : d.replacement.Plain) (ht : t.Collapsed) (hbase : ∀ u, Q (.base π) u)
    (hsubject : ∀ n, (asking π Q).Holds (NormalForm π (.base π) t) (normalize π n (.base π) t))
    (hstage : ∀ u p, NormalForm π (.base π) t u → Pattern.ofTerm? d.pattern = some p → ∀ n,
      (asking π Q).Holds (NormalForm π (.ofRule π p d.replacement) u)
        (normalize π n (.ofRule π p d.replacement) u))
    (fuel : Nat) : (asking π Q).Holds (NormalForm π (.base π) (d.around t))
      (normalize π fuel (.base π) (d.around t)) := by
  obtain ⟨p, hpattern⟩ := Option.isSome_iff_exists.mp (isSome_ofTerm? _ hp.directiveFree)
  -- the first step makes a plain term of the declaration
  refine asking_of_needs (G := fun u => u = d.around t ∨ u.Plain) ?_ ?_ (hbase _) (.inl rfl) fuel
  · rintro u v (rfl | hu) hv
    · exact .inr (hv.plain_of_directive hp hr hpattern ht)
    · exact .inr (invariant_plain.reduces ⟨rfl, hu⟩ hv).2
  · rintro u s v (rfl | hu) hn n
    · cases hn with
      | element hv =>
          simp only [List.mem_cons, List.not_mem_nil, or_false] at hv
          rcases hv with rfl | rfl | rfl | rfl
          · exact asking_plain hbase hp n
          · exact asking_plain hbase (Term.plain_atom _) n
          · exact asking_plain hbase hr n
          · exact hsubject n
      | rule he hrule hn =>
          obtain ⟨w, hw, rfl⟩ := (elementwise_directive_iff hp hr).mp he
          cases List.mem_singleton.mp hrule
          cases hn with
          | declare hd hpattern' =>
              cases (d.directive?_around w).symm.trans hd
              exact hstage w _ hw hpattern' n
    · obtain ⟨rfl, hv⟩ := invariant_plain.needs ⟨rfl, hu⟩ hn
      exact asking_plain hbase hv n

/-! ## Many declarations -/

theorem collapsed_declaring {ds : List Term.Declaration}
    (hds : ∀ d ∈ ds, d.pattern.Plain ∧ d.replacement.Plain) (ht : t.Plain) :
    (Term.declaring ds t).Collapsed := by
  induction ds with
  | nil => exact ht.collapsed
  | cons d ds ih =>
      obtain ⟨⟨hp, hr⟩, hds⟩ := List.forall_mem_cons.mp hds
      have harrow : (Term.atom .arrow).Collapsed := Term.collapsed_atom _
      refine Term.collapsed_seq_iff.mpr ⟨by simp, ?_⟩
      simpa [hp.collapsed, hr.collapsed, harrow, Term.declaring] using ih hds

theorem normalForm_declaring_iff {ds : List Term.Declaration}
    (hds : ∀ d ∈ ds, d.pattern.Plain ∧ d.replacement.Plain) (ht : t.Plain) :
    NormalForm π (.base π) (Term.declaring ds t) v ↔ Staged π (NormalForm π) t ds v := by
  induction ds generalizing v with
  | nil =>
      rw [Term.declaring, List.foldr_nil, ht.normalForm_iff]
      constructor
      · rintro rfl
        exact .nil
      · rintro ⟨⟩
        rfl
  | cons d ds ih =>
      obtain ⟨⟨hp, hr⟩, hds⟩ := List.forall_mem_cons.mp hds
      have hc : (Term.declaring ds t).Collapsed := collapsed_declaring hds ht
      refine (normalForm_directive_iff hp hr hc).trans ⟨?_, ?_⟩
      · rintro ⟨u, p, hu, hpattern, hv⟩
        exact .cons ((ih hds).mp hu) hpattern hv
      · intro h
        cases h with
        | cons hu hpattern hv => exact ⟨_, _, (ih hds).mpr hu, hpattern, hv⟩

theorem asking_declaring {Q : Scope → Term → Prop} {ds : List Term.Declaration}
    (hds : ∀ d ∈ ds, d.pattern.Plain ∧ d.replacement.Plain) (ht : t.Plain)
    (hbase : ∀ u, Q (.base π) u)
    (hstage : ∀ s u, StageBegins π (NormalForm π) t ds s u → ∀ n,
      (asking π Q).Holds (NormalForm π s u) (normalize π n s u)) (fuel : Nat) :
    (asking π Q).Holds (NormalForm π (.base π) (Term.declaring ds t))
      (normalize π fuel (.base π) (Term.declaring ds t)) := by
  induction ds generalizing fuel with
  | nil => exact asking_plain hbase ht fuel
  | cons d ds ih =>
      obtain ⟨⟨hp, hr⟩, hds⟩ := List.forall_mem_cons.mp hds
      refine asking_directive hp hr (collapsed_declaring hds ht) hbase
        (ih hds fun s u h => hstage s u (.there h)) (fun u p hu hpattern => ?_) fuel
      exact hstage _ u (.here ((normalForm_declaring_iff hds ht).mp hu) hpattern)

/-! ## Stages without arrows -/

theorem Term.ArrowFree.directive?_eq_none (h : t.ArrowFree) : t.directive? = none := by
  cases hd : t.directive? with
  | none => rfl
  | some d =>
      cases directive?_eq_some_iff.mp hd
      exact absurd rfl (h .arrow (by simp [Directive.toTerm, atoms, atomsAll]))

/-- As long as no arrow comes up, nothing is declared: there is the base scope, the scope of the
rule and the scopes of its matches. -/
theorem invariant_ofRule (p : Pattern) (body : Term) : Invariant π (NormalForm π) fun s t =>
    (s = .base π ∨ s.OfMatch π ∨ s = .ofRule π p body) ∧ s.Supplies Term.ArrowFree ∧
      t.ArrowFree := by
  have hinvariant := invariant_hereditary (π := π) (Term.hereditary_atoms (· ≠ .arrow))
  constructor
  · rintro s s' t u ⟨hs, hfree⟩ hn
    refine ⟨?_, hinvariant.needs hfree hn⟩
    cases hn with
    | element _ => exact hs
    | @rule _ t' _ _ _ he hr hn =>
        obtain ⟨hsupplies, ht⟩ := hfree
        have hN : ∀ t u, NormalForm π s t u → t.ArrowFree → u.ArrowFree :=
          fun _ _ h => h.hereditary (Term.hereditary_atoms _) hsupplies
        have ht' : t'.ArrowFree := he.hereditary (Term.hereditary_atoms _) hN ht
        have hundeclared : ¬ Rule.declaration.Needs π (NormalForm π) s t' s' u :=
          Rule.not_needs_declaration ht'.directive?_eq_none
        rcases hs with rfl | hs | rfl
        · cases List.mem_singleton.mp hr
          exact absurd hn hundeclared
        · obtain ⟨a, w, rfl⟩ := hs.replacing.mem_rules hr
          cases hn
        · rcases List.mem_pair.mp hr with rfl | rfl
          · cases hn with
            | body hm => exact .inr (.inl (.intro Scope.lexical_ofRule hr hm))
            | result _ _ => exact .inl rfl
          · exact absurd hn hundeclared
  · rintro s t u ⟨hs, hfree⟩ hu
    exact ⟨hs, hinvariant.reduces hfree hu⟩

theorem Staged.arrowFree {ds : List Term.Declaration} (h : Staged π (NormalForm π) t ds u)
    (hds : ∀ d ∈ ds, d.replacement.ArrowFree) (ht : t.ArrowFree) : u.ArrowFree := by
  induction h with
  | nil => exact ht
  | cons _ _ hu ih =>
      obtain ⟨hd, hds⟩ := List.forall_mem_cons.mp hds
      exact hu.hereditary (Term.hereditary_atoms _) (Scope.supplies_ofRule hd) (ih hds)

/-- In a stage without arrows, the only rule is that of its declaration. -/
theorem StageBegins.scope_of_asks {ds : List Term.Declaration} {s' : Scope}
    (h : StageBegins π (NormalForm π) t ds s u) (hds : ∀ d ∈ ds, d.replacement.ArrowFree)
    (ht : t.ArrowFree) (hasks : (Call.normalize s u).Asks π s' v) :
    s' = .base π ∨ s'.OfMatch π ∨ ∃ d ∈ ds, ∃ p, Pattern.ofTerm? d.pattern = some p ∧
      s' = .ofRule π p d.replacement := by
  induction h with
  | @here d ds p u hstaged hpattern =>
      obtain ⟨hd, hds⟩ := List.forall_mem_cons.mp hds
      have hu : u.ArrowFree := hstaged.arrowFree hds ht
      have hinvariant := invariant_ofRule (π := π) p d.replacement
      obtain ⟨hs, _, _⟩ := hinvariant.of_asks ⟨.inr (.inr rfl), Scope.supplies_ofRule hd, hu⟩ hasks
      exact hs.imp_right (.imp_right fun hs => ⟨d, by simp, p, hpattern, hs⟩)
  | there _ ih =>
      obtain ⟨_, hds⟩ := List.forall_mem_cons.mp hds
      refine (ih hds hasks).imp_right (.imp_right ?_)
      rintro ⟨d, hd, hs⟩
      exact ⟨d, List.mem_cons_of_mem _ hd, hs⟩

/-! ## One rule at a time -/

theorem Term.Declaration.mem_rules_iff {ds : List Declaration} {r : Rule} :
    r ∈ rules π ds ↔ ∃ d ∈ ds, ∃ p, Pattern.ofTerm? d.pattern = some p ∧
      .function p d.replacement (.base π) = r := by
  simp [rules]

/-- Only the oldest user-defined rule of a lexical scope can have been declared in the base
scope. -/
theorem Scope.Lexical.countP_rules_le (h : s.Lexical π) (ds : List Term.Declaration) :
    s.rules.countP (· ∈ Term.Declaration.rules π ds) ≤ 1 := by
  have hbase : (Scope.base π).rules.countP (· ∈ Term.Declaration.rules π ds) = 0 := by
    simp [Term.Declaration.mem_rules_iff]
  induction h with
  | base => omega
  | @declare s p body _ ih =>
      rw [rules_extend π (by simp), List.countP_cons]
      split
      · next hm =>
          -- a rule that is declared in the base scope is the only user-defined rule
          obtain ⟨_, _, _, _, heq⟩ := Term.Declaration.mem_rules_iff.mp (of_decide_eq_true hm)
          cases heq
          rw [hbase]
      · exact ih

theorem Scope.Regular.countP_rules_le (h : s.Regular π) (ds : List Term.Declaration) :
    s.rules.countP (· ∈ Term.Declaration.rules π ds) ≤ 1 := by
  rcases h with h | h
  · exact h.countP_rules_le ds
  · have hzero : s.rules.countP (· ∈ Term.Declaration.rules π ds) = 0 := by
      refine List.countP_eq_zero.mpr fun r hr => ?_
      obtain ⟨a, u, rfl⟩ := h.replacing.mem_rules hr
      simp [Term.Declaration.mem_rules_iff]
    omega

/-- A program of nested declarations comes to what its innermost subject comes to when the declared
rules, from the innermost to the outermost one, are put in force one after the other. Whatever is
rewritten on the way is rewritten in the base scope or in one of the stages, and with at most one of
the declared rules. Unless a rule brings up an arrow, there is no rule but that of the stage. -/
theorem nested_declarations_staged {engine engine' : Engine} (h : engine.Filled π)
    (h' : engine'.Filled π) {ds : List Term.Declaration}
    (hds : ∀ d ∈ ds, d.pattern.Plain ∧ d.replacement.Plain) (ht : t.Plain) :
    (∀ v : Term, engine.Answers π (.evaluate (Term.declaring ds t)) v ↔
      Staged π (fun s t u => engine'.Answers π (.normalize s t) u) t ds v) ∧
    ∀ fuel s u, .recall s u ∈ ((Call.evaluate (Term.declaring ds t)).job π fuel).requests engine →
      s.rules.countP (· ∈ Term.Declaration.rules π ds) ≤ 1 ∧
      AskedInStages π (fun s t u => engine'.Answers π (.normalize s t) u) t ds s u ∧
      ((∀ d ∈ ds, d.replacement.ArrowFree) → t.ArrowFree →
        s = .base π ∨ s.OfMatch π ∨ ∃ d ∈ ds, ∃ p, Pattern.ofTerm? d.pattern = some p ∧
          s = .ofRule π p d.replacement) := by
  simp only [h'.normalizes_iff]
  refine ⟨fun v => h.normalizes_iff.trans (normalForm_declaring_iff hds ht), fun fuel s u hq => ?_⟩
  have hregular : s.Regular π := by
    have hupholds : Job.Upholds (.confined (Scope.Regular π)) fun _ => True :=
      fun _ _ _ _ => ⟨trivial, trivial⟩
    exact (confined_evaluation (.evaluate _) fuel).permits_of_mem_requests hupholds trivial hq
  have hstages : AskedInStages π (NormalForm π) t ds s u :=
    (asking_declaring hds ht (fun _ => .inl rfl) (fun s' w hbegins =>
      asking_of_asks fun s u hasks => .inr ⟨s', w, hbegins, hasks⟩) fuel).2 engine h.sound s u hq
  refine ⟨hregular.countP_rules_le ds, hstages, fun hreplacements hfree => ?_⟩
  rcases hstages with hs | ⟨s', w, hbegins, hasks⟩
  · exact .inl hs
  · exact hbegins.scope_of_asks hreplacements hfree hasks

/-- The subject `[f A B]` of a declaration from `B` to `A` inside of one from `A` to `C` comes to
`[f A A]` first. -/
theorem nested_declarations_staged_inside_out :
    let ds : List Term.Declaration := [⟨.atom ⟨"A"⟩, .atom ⟨"C"⟩⟩, ⟨.atom ⟨"B"⟩, .atom ⟨"A"⟩⟩]
    let f (t u : Term) : Term := .seq [.atom ⟨"f"⟩, t, u]
    Engine.Filled .standard {} ∧ (∀ d ∈ ds, d.pattern.Plain ∧ d.replacement.Plain) ∧
    (f (.atom ⟨"A"⟩) (.atom ⟨"B"⟩)).Plain ∧
    Engine.Answers .standard {} (.evaluate (Term.declaring ds (f (.atom ⟨"A"⟩) (.atom ⟨"B"⟩))))
      (f (.atom ⟨"C"⟩) (.atom ⟨"C"⟩)) ∧
    ∀ fuel s u, .recall s u ∈ ((Call.evaluate (Term.declaring ds
        (f (.atom ⟨"A"⟩) (.atom ⟨"B"⟩)))).job .standard fuel).requests {} →
      s = .base .standard ∨ s.OfMatch .standard ∨ ∃ d ∈ ds, ∃ p,
        Pattern.ofTerm? d.pattern = some p ∧ s = .ofRule .standard p d.replacement := by
  intro ds f
  have h : Engine.Filled .standard {} := .fresh
  have hds : ∀ d ∈ ds, d.pattern.Plain ∧ d.replacement.Plain := by
    simp [ds, Term.plain_atom]
  have ht : (f (.atom ⟨"A"⟩) (.atom ⟨"B"⟩)).Plain :=
    Term.plain_seq (by simp) (by simp) (by simp [Term.plain_atom])
  have hinner : Engine.Answers .standard {} (.normalize
      (.ofRule .standard (.lit ⟨"B"⟩) (.atom ⟨"A"⟩)) (f (.atom ⟨"A"⟩) (.atom ⟨"B"⟩)))
      (f (.atom ⟨"A"⟩) (.atom ⟨"A"⟩)) :=
    h.normalizes_iff.mpr ⟨6, by decide +kernel⟩
  have houter : Engine.Answers .standard {} (.normalize
      (.ofRule .standard (.lit ⟨"A"⟩) (.atom ⟨"C"⟩)) (f (.atom ⟨"A"⟩) (.atom ⟨"A"⟩)))
      (f (.atom ⟨"C"⟩) (.atom ⟨"C"⟩)) :=
    h.normalizes_iff.mpr ⟨6, by decide +kernel⟩
  have hreplacements : ∀ d ∈ ds, d.replacement.ArrowFree := by
    simp [ds, Term.ArrowFree, Term.atoms, Atom.arrow]
  have hfree : (f (.atom ⟨"A"⟩) (.atom ⟨"B"⟩)).ArrowFree := by
    simp [f, Term.ArrowFree, Term.atoms, Term.atomsAll, Atom.arrow]
  obtain ⟨hstaged, hasked⟩ := nested_declarations_staged h h hds ht
  refine ⟨h, hds, ht, (hstaged _).mpr ?_, fun fuel s u hq => ?_⟩
  · exact .cons (.cons .nil (by decide) hinner) (by decide) houter
  · exact (hasked fuel s u hq).2.2 hreplacements hfree

end ScopedRewriting
