import ScopedRewriting.Engine.Normalize

/-!
# Computations that correspond

What makes requests is written for any monad in which requests can be made. So it can be read in two
of them, and a relation between the computations of both that is kept by `pure`, `bind` and requests
holds of the two readings of each step of rewriting. The readings may have different allowances of
steps.
-/

namespace ScopedRewriting

structure Correspondence (m m' : Type → Type) [Monad m] [MonadRequest m] [Monad m']
    [MonadRequest m'] where
  Rel {α : Type} : m α → m' α → Prop
  /-- Which allowances of steps the two sides may have. -/
  Allows : Nat → Nat → Prop
  pure {α : Type} (a : α) : Rel (pure a) (pure a)
  bind {α β : Type} {x : m α} {y : m' α} {f : α → m β} {g : α → m' β} : Rel x y →
    (∀ a, Rel (f a) (g a)) → Rel (x >>= f) (y >>= g)
  request (q : Request) : Rel (request q) (request q)
  zero {α : Type} {k : Nat} {y : Nat → m' α} : Allows 0 k → y 0 = exhausted → Rel exhausted (y k)
  succ {n k : Nat} : Allows (n + 1) k → ∃ j, k = j + 1 ∧ Allows n j

namespace Correspondence

variable {m m' : Type → Type} [Monad m] [MonadRequest m] [Monad m'] [MonadRequest m']
variable (L : Correspondence m m')

theorem note (e : Event) : L.Rel (note e) (note e) :=
  L.request (.note e)

theorem internAll (as : List Atom) : L.Rel (internAll as) (internAll as) := by
  induction as with
  | nil => exact L.pure ()
  | cons a as ih => exact L.bind (L.request (.intern a)) fun _ => ih

theorem share (f : Form) : L.Rel f.share f.share :=
  L.bind (L.internAll _) fun _ => L.pure _

theorem create (t : Term) : L.Rel (Pattern.create t) (Pattern.create t) :=
  L.bind (L.internAll _) fun _ => L.pure _

variable {π : Policy} {norm : Normalizer m} {norm' : Normalizer m'}

theorem apply (h : ∀ s t, L.Rel (norm s t) (norm' s t)) (s : Scope) (t : Term) (r : Rule) :
    L.Rel (r.apply π norm s t) (r.apply π norm' s t) := by
  cases r with
  | empty => exact L.pure none
  | declaration =>
      simp only [Rule.apply]
      cases t.directive? with
      | none => exact L.pure none
      | some d =>
          refine L.bind (L.create d.pattern) fun p? => ?_
          cases p? with
          | none => exact L.bind (L.note _) fun _ => L.pure none
          | some p => exact L.bind (L.note _) fun _ => L.bind (h _ _) fun u => L.pure (some u)
  | subst a u => exact L.pure _
  | function p body closure =>
      simp only [Rule.apply]
      cases p.match? t with
      | none => exact L.pure none
      | some b =>
          exact L.bind (L.note _) fun _ => L.bind (h _ _) fun u => L.bind (h _ _) fun v =>
            L.pure (some v)

theorem applyFirst (h : ∀ s t, L.Rel (norm s t) (norm' s t)) (s : Scope) (t : Term)
    (rs : List Rule) : L.Rel (applyFirst π norm s t rs) (applyFirst π norm' s t rs) := by
  induction rs with
  | nil => exact L.pure none
  | cons r rs ih =>
      refine L.bind (L.apply h s t r) fun u? => ?_
      cases u? with
      | none => exact ih
      | some u => exact L.pure (some u)

theorem settle {step : Term → m Term} {step' : Term → m' Term} (h : ∀ t, L.Rel (step t) (step' t))
    {n k : Nat} (hn : L.Allows n k) (t : Term) : L.Rel (settle step n t) (settle step' k t) := by
  induction n generalizing k t with
  | zero => exact L.zero (y := fun k => ScopedRewriting.settle step' k t) hn rfl
  | succ n ih =>
      obtain ⟨j, rfl, hj⟩ := L.succ hn
      refine L.bind (L.note _) fun _ => L.bind (h t) fun next => ?_
      split
      · exact L.pure t
      · exact ih hj next

variable [LawfulMonad m] [LawfulMonad m']

theorem mapM {α β : Type} {f : α → m β} {g : α → m' β} (h : ∀ a, L.Rel (f a) (g a)) (as : List α) :
    L.Rel (as.mapM f) (as.mapM g) := by
  induction as with
  | nil => exact L.pure []
  | cons a as ih =>
      rw [List.mapM_cons, List.mapM_cons]
      exact L.bind (h a) fun b => L.bind ih fun bs => L.pure (b :: bs)

theorem normalizeElements {f : Term → m Term} {g : Term → m' Term} (h : ∀ t, L.Rel (f t) (g t))
    (t : Term) : L.Rel (normalizeElements f t) (normalizeElements g t) := by
  cases t with
  | atom a => exact L.pure _
  | seq ts => exact L.bind (L.mapM h ts) fun us => L.pure _

theorem reduceOnce (h : ∀ s t, L.Rel (norm s t) (norm' s t)) (s : Scope) (t : Term) :
    L.Rel (reduceOnce π norm s t) (reduceOnce π norm' s t) :=
  L.bind (L.normalizeElements (h s) t) fun t' => L.bind (L.applyFirst h s t' s.rules) fun _ =>
    L.pure _

theorem normalize {n k : Nat} (hn : L.Allows n k) (s : Scope) (t : Term) :
    L.Rel (normalize π n s t) (normalize π k s t) := by
  induction n generalizing k s t with
  | zero => exact L.zero (y := fun k => ScopedRewriting.normalize π k s t) hn rfl
  | succ n ih =>
      obtain ⟨j, rfl, hj⟩ := L.succ hn
      refine L.bind (L.request _) fun (known? : Option Term) => ?_
      cases known? with
      | none =>
          refine L.bind (L.settle (L.reduceOnce (fun s t => ih hj s t) s) hj t) fun normal => ?_
          exact L.bind (L.request _) fun _ => L.pure normal
      | some normal => exact L.bind (L.note _) fun _ => L.pure normal

theorem evaluate {n k : Nat} (hn : L.Allows n k) (t : Term) :
    L.Rel (evaluate π n t) (evaluate π k t) :=
  L.normalize hn (.base π) t

theorem evaluateText {n k : Nat} (hn : L.Allows n k) (text : String) :
    L.Rel (evaluateText π n text) (evaluateText π k text) := by
  unfold ScopedRewriting.evaluateText
  cases Form.parse text with
  | error e => exact L.pure _
  | ok f => exact L.bind (L.share f) fun t => L.bind (L.evaluate hn t) fun normal => L.pure _

end Correspondence

end ScopedRewriting
