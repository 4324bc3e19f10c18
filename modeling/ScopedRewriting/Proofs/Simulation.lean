import ScopedRewriting.Proofs.Renaming
import ScopedRewriting.Proofs.Substitution
import ScopedRewriting.Proofs.Vocabulary

/-!
# Runs in lockstep

Rewriting renamed terms goes on in lockstep with rewriting the terms themselves, as long as the
scopes have the same rules, up to the renaming and to rules that do not match anyway. A `Simulation`
says of which scopes this holds; it is then kept along the whole run, and normal forms are renamed
normal forms (`Simulation.normalForm_rename_iff`). What is stored on the way is renamed, too
(`Simulation.lockstep_normalize`).
-/

namespace ScopedRewriting

variable {α β γ δ : Type} {π π' : Policy} {f : Atom → Atom} {P : Term → Prop}

/-! ## Jobs in lockstep -/

/-- A term with its normal form in a scope, as they are stored. -/
abbrev Entry := Scope × Term × Term

def Request.entry? : Request → Option Entry
  | .memorize s t n => some (s, t, n)
  | _ => none

/-- What a job for an engine that remembers nothing stores, one entry after the other. -/
def Job.entries (j : Job α) : List Entry :=
  j.demands.filterMap Request.entry?

theorem Job.mem_entries_iff {j : Job α} {s : Scope} {t n : Term} :
    (s, t, n) ∈ j.entries ↔ .memorize s t n ∈ j.demands := by
  rw [entries, List.mem_filterMap]
  constructor
  · rintro ⟨q, hq, he⟩
    cases q <;> simp_all [Request.entry?]
  · intro h
    exact ⟨_, h, rfl⟩

theorem Job.entries_bind (j : Job α) (f : α → Job β) :
    (j >>= f).entries = j.entries ++ (j.forgetful.map fun a => (f a).entries).getD [] := by
  rw [entries, demands_bind, List.filterMap_append]
  cases j.forgetful <;> rfl

theorem Job.entries_internAll (as : List Atom) : (internAll as : Job Unit).entries = [] := by
  induction as with
  | nil => rfl
  | cons a as ih => exact ih

/-- For engines that remember nothing, both jobs have results, which are related by `R`, or none
has; and what they store is related by `E`, one entry after the other. -/
def Job.Lockstep (E : Entry → Entry → Prop) (R : α → β → Prop) (j : Job α) (k : Job β) : Prop :=
  Option.Rel R j.forgetful k.forgetful ∧ List.Forall₂ E j.entries k.entries

namespace Job.Lockstep

variable {E : Entry → Entry → Prop} {R : α → β → Prop} {S : γ → δ → Prop} {j : Job α} {k : Job β}

theorem done {a : α} {b : β} (h : R a b) : Lockstep E R (.done a) (.done b) :=
  ⟨.some h, .nil⟩

theorem exhausted : Lockstep E R MonadRequest.exhausted MonadRequest.exhausted :=
  ⟨.none, .nil⟩

theorem bind {g : α → Job γ} {h : β → Job δ} (hj : Lockstep E R j k)
    (hg : ∀ a b, R a b → Lockstep E S (g a) (h b)) : Lockstep E S (j >>= g) (k >>= h) := by
  unfold Lockstep at hj ⊢
  rw [forgetful_bind, forgetful_bind, entries_bind, entries_bind]
  generalize j.forgetful = a?, k.forgetful = b? at hj
  obtain ⟨hresults, hentries⟩ := hj
  cases hresults with
  | some hab =>
      obtain ⟨hresults', hentries'⟩ := hg _ _ hab
      exact ⟨hresults', List.rel_append hentries hentries'⟩
  | none => exact ⟨.none, List.rel_append hentries .nil⟩

theorem isSome_eq (h : Lockstep E R j k) : j.forgetful.isSome = k.forgetful.isSome := by
  obtain ⟨hresults, _⟩ := h
  generalize j.forgetful = a?, k.forgetful = b? at hresults
  cases hresults <;> rfl

theorem note (e e' : Event) :
    Lockstep E (fun _ _ => True) (ScopedRewriting.note e) (ScopedRewriting.note e') :=
  ⟨.some trivial, .nil⟩

theorem internAll (as as' : List Atom) :
    Lockstep E (fun _ _ => True) (ScopedRewriting.internAll as)
      (ScopedRewriting.internAll as') := by
  unfold Lockstep
  rw [forgetful_internAll, forgetful_internAll, entries_internAll, entries_internAll]
  exact ⟨.some trivial, .nil⟩

/-- Neither of them recalls anything. -/
theorem ask_recall {s s' : Scope} {t t' : Term} {g : Option Term → Job α} {h : Option Term → Job β}
    (hnone : Lockstep E R (g none) (h none)) :
    Lockstep E R (.ask (.recall s t) g) (.ask (.recall s' t') h) :=
  hnone

theorem ask_memorize {s s' : Scope} {t t' n n' : Term} (h : E (s, t, n) (s', t', n')) :
    Lockstep E (fun _ _ => True) (request (.memorize s t n)) (request (.memorize s' t' n')) :=
  ⟨.some trivial, .cons h .nil⟩

theorem mapM {T : Term → Term → Prop} {norm norm' : Term → Job Term} {ts ts' : List Term}
    (h : ∀ t t', T t t' → Lockstep E T (norm t) (norm' t')) (hts : List.Forall₂ T ts ts') :
    Lockstep E (List.Forall₂ T) (ts.mapM norm) (ts'.mapM norm') := by
  induction hts with
  | nil => exact done .nil
  | cons ht _ ih =>
      rw [List.mapM_cons, List.mapM_cons]
      exact (h _ _ ht).bind fun _ _ hu => ih.bind fun _ _ hus => done (.cons hu hus)

end Job.Lockstep

/-! ## Rules that are alike -/

/-- The term has the property, and the other one is what it is renamed to. -/
def Term.Image (f : Atom → Atom) (P : Term → Prop) (t t' : Term) : Prop :=
  P t ∧ t' = t.rename f

theorem Term.forall₂_image_iff {ts ts' : List Term} :
    List.Forall₂ (Image f P) ts ts' ↔ (∀ t ∈ ts, P t) ∧ ts' = ts.map (rename f) := by
  induction ts generalizing ts' with
  | nil => simp
  | cons t ts ih => cases ts' <;> simp [ih, Image, and_assoc, and_left_comm]

section

variable (f : Atom → Atom) (P : Term → Prop) (S : Scope → Scope → Prop)

/-- The second rule is the first one renamed, closures being related by `S`. -/
inductive Rule.Like : Rule → Rule → Prop
  | empty : Rule.Like .empty .empty
  | declaration : Rule.Like .declaration .declaration
  | subst (a : Atom) (t : Term) : P t → Rule.Like (.subst a t) (.subst (f a) (t.rename f))
  | function (p : Pattern) (body : Term) {c c' : Scope} : P body → S c c' →
      Rule.Like (.function p body c) (.function (p.rename f) (body.rename f) c')

/-- The rules on the right are like those on the left, apart from rules that do not match what `t`
is renamed to. Of the rules that are left, only those matter that are tried if the first one does
not match. -/
inductive Rule.Follow (t : Term) : List Rule → List Rule → Prop
  | nil : Rule.Follow t [] []
  | both {r r' : Rule} {rs rs' : List Rule} : Rule.Like f P S r r' →
      ((∀ p ∈ r.pattern?, p.match? t = none) → Rule.Follow t rs rs') →
      Rule.Follow t (r :: rs) (r' :: rs')
  | idle {p : Pattern} (body : Term) (c : Scope) {rs rs' : List Rule} :
      p.match? (t.rename f) = none → Rule.Follow t rs rs' →
      Rule.Follow t rs (.function p body c :: rs')

end

/-- Says of which scopes the second one has the rules of the first one, renamed, and other rules
only where they do not match. This has to hold for terms with the property only. -/
structure Simulation (π π' : Policy) (f : Atom → Atom) (P : Term → Prop) where
  Alike : Scope → Scope → Prop
  follow {s s' : Scope} {t : Term} : Alike s s' → P t → Rule.Follow f P Alike t s.rules s'.rules
  declare {s s' : Scope} {body : Term} (p : Pattern) : Alike s s' → P body →
    Alike (s.extend π (.function p body s))
      (s'.extend π' (.function (p.rename f) (body.rename f) s'))

namespace Simulation

open Job

/-- The scopes that two runs in lockstep get to. -/
inductive Related (σ : Simulation π π' f P) : Scope → Scope → Prop
  | alike {s s' : Scope} : σ.Alike s s' → Related σ s s'
  | bindings {b : Bindings} : (∀ v u, b.get? v = some u → P u) →
      Related σ (.ofBindings π b) (.ofBindings π' (b.rename f))

/-- The second entry is the first one renamed, for a related scope. -/
inductive Stores (σ : Simulation π π' f P) : Entry → Entry → Prop
  | intro {s s' : Scope} {t t' n n' : Term} : Related σ s s' → Term.Image f P t t' →
      Term.Image f P n n' → Stores σ (s, t, n) (s', t', n')

/-! ## Steps in lockstep -/

section

variable {σ : Simulation π π' f P} {E : Entry → Entry → Prop} {norm norm' : Normalizer Job}
  {s s' : Scope} {t t' : Term}

theorem lockstep_normalizeElements (hP : Term.Hereditary P) {norm norm' : Term → Job Term}
    (h : ∀ t t', Term.Image f P t t' → Lockstep E (Term.Image f P) (norm t) (norm' t'))
    (ht : Term.Image f P t t') :
    Lockstep E (Term.Image f P) (normalizeElements norm t) (normalizeElements norm' t') := by
  obtain ⟨hPt, rfl⟩ := ht
  cases t with
  | atom a => exact .done ⟨hPt, rfl⟩
  | seq ts =>
      have hts : List.Forall₂ (Term.Image f P) ts (ts.map (Term.rename f)) :=
        Term.forall₂_image_iff.mpr ⟨hP.element hPt, rfl⟩
      rw [Term.rename, Term.renameAll_eq_map]
      refine (Lockstep.mapM h hts).bind fun us us' hus => ?_
      obtain ⟨hPus, rfl⟩ := Term.forall₂_image_iff.mp hus
      exact .done ⟨hP.group hPus, (Term.rename_group us).symm⟩

theorem lockstep_create (hf : Atom.Renaming f) (t : Term) :
    Lockstep E (fun p? p'? => p? = Pattern.ofTerm? t ∧ p'? = p?.map (Pattern.rename f))
      (Pattern.create t) (Pattern.create (t.rename f)) :=
  (Lockstep.internAll _ _).bind fun _ _ _ => .done ⟨rfl, Pattern.ofTerm?_rename hf t⟩

variable (hf : Atom.Renaming f) (hP : Term.Hereditary P)
  (h : ∀ s s' t t', σ.Related s s' → Term.Image f P t t' →
    Lockstep E (Term.Image f P) (norm s t) (norm' s' t'))

include hf hP h

/-- Like rules yield renamed terms, and where they yield none, they do not match. -/
theorem lockstep_apply (hs : σ.Alike s s') (ht : P t) {r r' : Rule}
    (hr : Rule.Like f P σ.Alike r r') :
    Lockstep E (fun u? u'? => Option.Rel (Term.Image f P) u? u'? ∧
      (u? = none → ∀ p ∈ r.pattern?, p.match? t = none))
      (r.apply π norm s t) (r'.apply π' norm' s' (t.rename f)) := by
  cases hr with
  | empty => exact .done ⟨.none, by simp [Rule.pattern?]⟩
  | declaration =>
      simp only [Rule.apply, Term.directive?_rename hf]
      cases hd : t.directive? with
      | none => exact .done ⟨.none, by simp [Rule.pattern?]⟩
      | some d =>
          rw [Term.directive?_eq_some_iff] at hd
          subst hd
          have hPd := hP.element ht
          refine (lockstep_create hf d.pattern).bind ?_
          rintro p? _ ⟨_, rfl⟩
          cases p? with
          | none =>
              exact (Lockstep.note _ _).bind fun _ _ _ => .done ⟨.none, by simp [Rule.pattern?]⟩
          | some p =>
              have hs' := σ.declare p hs (hPd d.replacement (by simp))
              refine (Lockstep.note _ _).bind fun _ _ _ => ?_
              refine (h _ _ _ _ (.alike hs') ⟨hPd d.subject (by simp), rfl⟩).bind fun u u' hu => ?_
              exact .done ⟨.some hu, by simp⟩
  | subst a u hu =>
      simp only [Rule.apply, Term.rename_eq_atom_iff hf.injective]
      split
      · exact .done ⟨.some ⟨hu, rfl⟩, by simp⟩
      · exact .done ⟨.none, by simp [Rule.pattern?]⟩
  | function p body hbody hc =>
      simp only [Rule.apply, Pattern.match?_rename hf.injective]
      cases hm : p.match? t with
      | none => exact .done ⟨.none, by simp [Rule.pattern?, hm]⟩
      | some b =>
          have hb : ∀ v u, b.get? v = some u → P u := fun v u hu =>
            hP.subterm ht (Pattern.subterm_of_match? hu p t hm)
          refine (Lockstep.note _ _).bind fun _ _ _ => ?_
          refine (h _ _ _ _ (.bindings hb) ⟨hbody, rfl⟩).bind fun u u' hu => ?_
          refine (h _ _ _ _ (.alike hc) hu).bind fun v v' hv => ?_
          exact .done ⟨.some hv, by simp⟩

theorem lockstep_applyFirst (hs : σ.Alike s s') (ht : P t) {rs rs' : List Rule}
    (hrs : Rule.Follow f P σ.Alike t rs rs') :
    Lockstep E (Option.Rel (Term.Image f P)) (applyFirst π norm s t rs)
      (applyFirst π' norm' s' (t.rename f) rs') := by
  induction hrs with
  | nil => exact .done .none
  | both hr _ ih =>
      refine (lockstep_apply hf hP h hs ht hr).bind ?_
      rintro u? u'? ⟨hu, hnone⟩
      cases hu with
      | some hu => exact .done (.some hu)
      | none => exact ih (hnone rfl)
  | idle body c hm _ ih => simpa [applyFirst, Rule.apply, hm] using ih

omit hP h in
theorem lockstep_applyFirst_bindings (norm norm' : Normalizer Job) {b : Bindings}
    (hb : ∀ v u, b.get? v = some u → P u) :
    Lockstep E (Option.Rel (Term.Image f P)) (applyFirst π norm s t (Scope.ofBindings π b).rules)
      (applyFirst π' norm' s' (t.rename f) (Scope.ofBindings π' (b.rename f)).rules) := by
  -- the order of the rules may differ on the two sides, but not what they are looked up for
  rw [applyFirst_ofBindings, applyFirst_ofBindings]
  refine .done ?_
  cases t with
  | seq ts => exact .none
  | atom a =>
      simp only [Term.rename, Term.atom?, Option.bind_some, Bindings.get?_rename hf.injective]
      cases hu : b.get? a with
      | none => exact .none
      | some u => exact .some ⟨hb a u hu, rfl⟩

theorem lockstep_reduceOnce (hs : σ.Related s s') (ht : Term.Image f P t t') :
    Lockstep E (Term.Image f P) (reduceOnce π norm s t) (reduceOnce π' norm' s' t') := by
  refine (lockstep_normalizeElements hP (fun t t' => h s s' t t' hs) ht).bind ?_
  rintro t _ ⟨ht, rfl⟩
  have hfirst : Lockstep E (Option.Rel (Term.Image f P)) (applyFirst π norm s t s.rules)
      (applyFirst π' norm' s' (t.rename f) s'.rules) := by
    cases hs with
    | alike hs => exact lockstep_applyFirst hf hP h hs ht (σ.follow hs ht)
    | bindings hb => exact lockstep_applyFirst_bindings hf norm norm' hb
  refine hfirst.bind fun u? u'? hu => ?_
  cases hu with
  | some hu => exact .done hu
  | none => exact .done ⟨ht, rfl⟩

end

/-! ## Runs in lockstep -/

theorem lockstep_settle (hf : Function.Injective f) {step step' : Term → Job Term}
    {E : Entry → Entry → Prop}
    (h : ∀ t t', Term.Image f P t t' → Lockstep E (Term.Image f P) (step t) (step' t'))
    (n : Nat) {t t' : Term} (ht : Term.Image f P t t') :
    Lockstep E (Term.Image f P) (settle step n t) (settle step' n t') := by
  induction n generalizing t t' with
  | zero => exact .exhausted
  | succ n ih =>
      refine (Lockstep.note _ _).bind fun _ _ _ => (h t t' ht).bind fun u u' hu => ?_
      -- both loops end at the same time, as different terms are renamed to different ones
      have hiff : u' = t' ↔ u = t := by rw [hu.2, ht.2, Term.rename_inj hf]
      by_cases heq : u = t
      · rw [if_pos heq, if_pos (hiff.mpr heq)]
        exact .done ht
      · rw [if_neg heq, if_neg fun heq' => heq (hiff.mp heq')]
        exact ih hu

/-- In related scopes, both runs have normal forms, the second one the renamed one, or none has. The
second run stores the entries of the first one, renamed. -/
theorem lockstep_normalize (σ : Simulation π π' f P) (hf : Atom.Renaming f)
    (hP : Term.Hereditary P) (n : Nat) {s s' : Scope} {t t' : Term} (hs : σ.Related s s')
    (ht : Term.Image f P t t') :
    Lockstep σ.Stores (Term.Image f P) (normalize π n s t) (normalize π' n s' t') := by
  induction n generalizing s s' t t' with
  | zero => exact .exhausted
  | succ n ih =>
      have hsettle : Lockstep σ.Stores (Term.Image f P)
          (settle (reduceOnce π (normalize π n) s) n t)
          (settle (reduceOnce π' (normalize π' n) s') n t') :=
        lockstep_settle hf.injective
          (fun t t' => lockstep_reduceOnce hf hP (fun _ _ _ _ => ih) hs) n ht
      rw [normalize_succ, normalize_succ]
      refine .ask_recall (hsettle.bind fun u u' hu => ?_)
      exact (Lockstep.ask_memorize (.intro hs ht hu)).bind fun _ _ _ => .done hu

/-- In scopes that are alike, what a term is renamed to has the normal forms that those of the term
are renamed to. -/
theorem normalForm_rename_iff (σ : Simulation π π' f P) (hf : Atom.Renaming f)
    (hP : Term.Hereditary P) {s s' : Scope} {t w : Term} (hs : σ.Alike s s') (ht : P t) :
    NormalForm π' s' (t.rename f) w ↔ ∃ u, w = u.rename f ∧ NormalForm π s t u := by
  have hstep (n : Nat) := (σ.lockstep_normalize hf hP n (.alike hs) ⟨ht, rfl⟩).1
  constructor
  · rintro ⟨n, hn⟩
    have hrel := hstep n
    rw [hn] at hrel
    generalize hu : Job.forgetful (normalize π n s t) = u? at hrel
    cases hrel with
    | some himage => exact ⟨_, himage.2, n, hu⟩
  · rintro ⟨u, rfl, n, hn⟩
    have hrel := hstep n
    rw [hn] at hrel
    generalize hw : Job.forgetful (normalize π' n s' (t.rename f)) = w? at hrel
    cases hrel with
    | some himage => exact ⟨n, himage.2 ▸ hw⟩

end Simulation

end ScopedRewriting
