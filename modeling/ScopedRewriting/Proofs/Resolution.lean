import Mathlib.Order.WellFoundedSet
import ScopedRewriting.Proofs.Substitution

/-!
# Resolving variables

Rewriting with rules that replace variables goes on until no variable is left to be replaced. It
comes to an end if and only if the variables do not depend on one another in a cycle, and then every
variable has been replaced by its resolution, whatever the order of the rules (`resolution_exact`).
-/

namespace ScopedRewriting

open Function Relation

namespace Bindings

/-- The atom `x` is bound to something other than itself, in which the bound atom `y` occurs. -/
def Depends (b : Bindings) (x y : Atom) : Prop :=
  ∃ u, b.get? x = some u ∧ u ≠ .atom x ∧ (b.get? y).isSome ∧ y ∈ u.atoms

/-- The bound atoms of the term lead to atoms that depend on themselves. -/
def Circular (b : Bindings) (t : Term) : Prop :=
  ∃ a ∈ t.atoms, (b.get? a).isSome ∧
    ∃ x, ReflTransGen b.Depends a x ∧ TransGen b.Depends x x

mutual
/-- The second term is the first one with every bound atom replaced by its resolution. That is the
atom itself if it is bound to itself, and what the atom is bound to, resolved in turn, otherwise. -/
inductive Resolves (b : Bindings) : Term → Term → Prop
  | unbound {a : Atom} : b.get? a = none → Resolves b (.atom a) (.atom a)
  | itself {a : Atom} : b.get? a = some (.atom a) → Resolves b (.atom a) (.atom a)
  | bound {a : Atom} {t u : Term} : b.get? a = some t → t ≠ .atom a → Resolves b t u →
      Resolves b (.atom a) u
  | seq {ts us : List Term} : ResolvesAll b ts us → Resolves b (.seq ts) (.seq us)

inductive ResolvesAll (b : Bindings) : List Term → List Term → Prop
  | nil : ResolvesAll b [] []
  | cons {t u : Term} {ts us : List Term} : Resolves b t u → ResolvesAll b ts us →
      ResolvesAll b (t :: ts) (u :: us)
end

end Bindings

/-- The scope that replaces atoms as the entries say, the rule for the first entry being the oldest
one. -/
def Scope.ofEntries (π : Policy) (es : Entries) : Scope :=
  extendMany π .nil (es.map fun e => .subst e.1 e.2)

variable {π π' : Policy} {b : Bindings} {es : Entries} {s : Scope} {t u : Term} {a : Atom}

/-! ## Cycles -/

/-- If only finitely many elements can be reached, then one cannot go on forever unless in a
cycle. -/
theorem acc_swap_iff {α : Type} {r : α → α → Prop} {a : α}
    (hfin : {x | ReflTransGen r a x}.Finite) :
    Acc (swap r) a ↔ ∀ x, ReflTransGen r a x → ¬ TransGen r x x := by
  constructor
  · intro h x hx
    have hacc : Acc (TransGen (swap r)) x := by
      rw [acc_transGen_iff]
      induction hx with
      | refl => exact h
      | tail _ hr ih => exact ih.inv hr
    exact fun hxx => not_rel_self_of_acc hacc (transGen_swap.mpr hxx)
  · intro h
    refine (Set.WellFoundedOn.acc_iff_wellFoundedOn.out 0 1).mpr ?_
    have hset : {x | ReflTransGen (swap r) x a} = {x | ReflTransGen r a x} := by
      simp only [reflTransGen_swap]
    rw [hset]
    let q : {x | ReflTransGen r a x} → {x | ReflTransGen r a x} → Prop :=
      fun x y => TransGen (swap r) x y
    have : Finite {x | ReflTransGen r a x} := hfin
    have : IsTrans _ q := ⟨fun _ _ _ => TransGen.trans⟩
    have : Std.Irrefl q := ⟨fun x hx => h x x.2 (transGen_swap.mp hx)⟩
    exact Subrelation.wf (r := q) (fun hr => .single hr) (Finite.wellFounded_of_trans_of_irrefl q)

namespace Bindings

theorem finite_depends (b : Bindings) (a : Atom) : {x | ReflTransGen b.Depends a x}.Finite := by
  have hkeys : {x | (b.get? x).isSome}.Finite := by
    refine (b.entries.map Prod.fst).toFinset.finite_toSet.subset fun x hx => ?_
    obtain ⟨u, hu⟩ := Option.isSome_iff_exists.mp hx
    simpa using ⟨u, get?_eq_some_iff.mp hu⟩
  refine (hkeys.insert a).subset fun x hx => ?_
  rcases hx.cases_tail with rfl | ⟨y, _, u, _, _, hx, _⟩
  · exact .inl rfl
  · exact .inr hx

/-- Atoms that are not bound need nothing. -/
theorem acc_needs_iff : Acc b.Needs a ↔ Acc (swap b.Depends) a := by
  constructor
  · refine fun h => Subrelation.accessible ?_ h
    rintro y x ⟨u, hu, hne, _, hy⟩
    exact ⟨u, hu, hne, hy⟩
  · intro h
    induction h with
    | intro a _ ih =>
        refine .intro a fun x hx => ?_
        obtain ⟨u, hu, hne, hxu⟩ := hx
        cases hb : b.get? x with
        | none =>
            refine .intro x fun y hy => ?_
            obtain ⟨v, hv, _⟩ := hy
            cases hb.symm.trans hv
        | some v => exact ih x ⟨u, hu, hne, by simp [hb], hxu⟩

/-- Variables can be replaced forever if and only if they depend on one another in a cycle. -/
theorem grounded_iff : b.Grounded t ↔ ¬ b.Circular t := by
  have hcycle (a : Atom) : Acc b.Needs a ↔
      ∀ x, ReflTransGen b.Depends a x → ¬ TransGen b.Depends x x := by
    rw [acc_needs_iff, acc_swap_iff (b.finite_depends a)]
  simp only [Grounded, hcycle, Circular, not_exists, not_and]
  refine forall₂_congr fun a _ => ⟨fun h _ => h, fun h x hx hxx => ?_⟩
  -- the first atom on the way to a cycle is bound
  have ha : (b.get? a).isSome := by
    obtain ⟨y, ⟨u, hu, _⟩, _⟩ := TransGen.head'_iff.mp (TransGen.trans_right hx hxx)
    simp [hu]
  exact h ha x hx hxx

/-! ## Resolutions -/

theorem ResolvesAll.length_eq {ts us : List Term} : b.ResolvesAll ts us → us.length = ts.length
  | .nil => rfl
  | .cons _ h => congrArg (· + 1) h.length_eq

theorem exists_resolvesAll {ts : List Term} (h : ∀ t ∈ ts, ∃ u, b.Resolves t u) :
    ∃ us, b.ResolvesAll ts us := by
  induction ts with
  | nil => exact ⟨[], .nil⟩
  | cons t ts ih =>
      obtain ⟨⟨u, hu⟩, hts⟩ := List.forall_mem_cons.mp h
      obtain ⟨us, hus⟩ := ih hts
      exact ⟨u :: us, .cons hu hus⟩

theorem exists_resolves_of_atoms (h : ∀ a ∈ t.atoms, ∃ u, b.Resolves (.atom a) u) :
    ∃ u, b.Resolves t u := by
  induction t using Term.induct with
  | atom a => exact h a (by simp [Term.atoms])
  | seq ts ih =>
      simp only [Term.atoms, Term.atomsAll_eq_flatMap, List.mem_flatMap] at h
      obtain ⟨us, hus⟩ := exists_resolvesAll fun t ht => ih t ht fun a ha => h a ⟨t, ht, ha⟩
      exact ⟨_, .seq hus⟩

theorem exists_resolves_atom (h : Acc b.Needs a) : ∃ u, b.Resolves (.atom a) u := by
  induction h with
  | intro a _ ih =>
      cases hu : b.get? a with
      | none => exact ⟨_, .unbound hu⟩
      | some u =>
          by_cases hne : u = .atom a
          · exact ⟨_, .itself (hne ▸ hu)⟩
          · obtain ⟨v, hv⟩ := exists_resolves_of_atoms fun x hx => ih x ⟨u, hu, hne, hx⟩
            exact ⟨v, .bound hu hne hv⟩

theorem Grounded.exists_resolves (h : b.Grounded t) : ∃ u, b.Resolves t u :=
  exists_resolves_of_atoms fun a ha => exists_resolves_atom (h a ha)

end Bindings

/-! ## Resolving by rewriting -/

mutual
theorem normalForm_of_resolves (hb : ∀ a u, b.get? a = some u → u.Collapsed) {t u : Term} :
    b.Resolves t u → t.Collapsed → NormalForm π (.ofBindings π' b) t u
  | .unbound hu, ht => Term.Final.normalForm ⟨ht, by simp [Term.substitute, hu]⟩
  | .itself hu, ht => Term.Final.normalForm ⟨ht, by simp [Term.substitute, hu]⟩
  | .bound hu _ hv, _ =>
      .of_reduces (reduces_atom_iff.mpr (by simp [Term.substitute, hu]))
        (normalForm_of_resolves hb hv (hb _ _ hu))
  | .seq hus, ht => by
      obtain ⟨hlen, hts⟩ := Term.collapsed_seq_iff.mp ht
      rw [← hus.length_eq] at hlen
      exact normalForm_of_elementwise (.seq_of_length (forall₂_of_resolvesAll hb hus hts) hlen)

theorem forall₂_of_resolvesAll (hb : ∀ a u, b.get? a = some u → u.Collapsed) {ts us : List Term} :
    b.ResolvesAll ts us → (∀ t ∈ ts, t.Collapsed) →
    List.Forall₂ (NormalForm π (.ofBindings π' b)) ts us
  | .nil, _ => .nil
  | .cons hu hus, h =>
      .cons (normalForm_of_resolves hb hu (h _ (by simp)))
        (forall₂_of_resolvesAll hb hus fun t ht => h t (by simp [ht]))
end

theorem normalForm_iff_resolves (hb : ∀ a u, b.get? a = some u → u.Collapsed) (ht : t.Collapsed) :
    NormalForm π (.ofBindings π' b) t u ↔ b.Resolves t u := by
  refine ⟨fun hu => ?_, fun hu => normalForm_of_resolves hb hu ht⟩
  obtain ⟨v, hv⟩ := hu.grounded.exists_resolves
  cases hu.unique (normalForm_of_resolves hb hv ht)
  exact hv

/-- The policy that brings the bindings into the given order. -/
def Policy.arranging (π : Policy) (h : es.Perm b.entries) : Policy where
  digest := π.digest
  arrange c := if c = b then es else π.arrange c
  arrange_perm c := by
    split
    · next hc => exact hc ▸ h
    · exact π.arrange_perm c

theorem Scope.ofEntries_eq (h : es.Perm b.entries) :
    ofEntries π es = ofBindings (π.arranging h) b := by
  simp only [ofBindings, Policy.arranging, if_true]
  rfl

/-- A term comes to its resolution, if the atoms that are bound to other terms do not depend on one
another in a cycle, and does not come to an end otherwise. Sequences keep their lengths, and the
order of the rules does not matter. -/
theorem resolution_exact {engine : Engine} (h : engine.Filled π) (hes : es.Perm b.entries)
    (hb : ∀ a u, b.get? a = some u → u.Collapsed) (ht : t.Collapsed) :
    ((∃ u : Term, engine.Answers π (.normalize (.ofEntries π es) t) u) ↔ ¬ b.Circular t) ∧
    (∀ u : Term, engine.Answers π (.normalize (.ofEntries π es) t) u ↔ b.Resolves t u) ∧
    (∀ u : Term, engine.Answers π (.normalize (.ofEntries π es) t) u →
      ∀ n, t.length? = some n → u.length? = some n) ∧
    ∀ es', es'.Perm b.entries → ∀ u : Term,
      engine.Answers π (.normalize (.ofEntries π es') t) u ↔
        engine.Answers π (.normalize (.ofEntries π es) t) u := by
  have hresolves {es' : Entries} (hes' : es'.Perm b.entries) (u : Term) :
      engine.Answers π (.normalize (.ofEntries π es') t) u ↔ b.Resolves t u := by
    rw [h.normalizes_iff, Scope.ofEntries_eq hes', normalForm_iff_resolves hb ht]
  refine ⟨?_, hresolves hes, fun u hu n hn => ?_, fun es' hes' u => ?_⟩
  · simp only [h.normalizes_iff, Scope.ofEntries_eq hes]
    exact normalizing_iff_grounded.trans Bindings.grounded_iff
  · cases (hresolves hes u).mp hu with
    | seq hus => simpa [Term.length?, hus.length_eq] using hn
    | _ => cases hn
  · rw [hresolves hes', hresolves hes]

/-- Needed for `x` are `y` and `z`, of which `z` stays as it is. Apart from them, `v` and `w` depend
on one another. -/
private def entangled : Bindings :=
  let x := Bindings.single ⟨"x"⟩ (.ofForm (.group [.word "y", .word "z"]))
  let xy := x.insert ⟨"y"⟩ (.ofForm (.group []))
  let xyz := xy.insert ⟨"z"⟩ (.ofForm (.word "z"))
  let vxyz := xyz.insert ⟨"v"⟩ (.ofForm (.word "w"))
  vxyz.insert ⟨"w"⟩ (.ofForm (.group [.word "g", .word "v"]))

private theorem collapsed_entangled (a : Atom) (u : Term) (h : entangled.get? a = some u) :
    u.Collapsed := by
  simp only [entangled, Bindings.single, Bindings.get?_insert, Bindings.get?_empty] at h
  split_ifs at h <;> (cases h; exact Term.collapsed_ofForm _)

private theorem circular_entangled : entangled.Circular (.atom ⟨"v"⟩) := by
  have hvw : entangled.Depends ⟨"v"⟩ ⟨"w"⟩ := ⟨_, rfl, by decide, rfl, by decide⟩
  have hwv : entangled.Depends ⟨"w"⟩ ⟨"v"⟩ := ⟨_, rfl, by decide, rfl, by decide⟩
  exact ⟨⟨"v"⟩, by simp [Term.atoms], rfl, ⟨"v"⟩, .refl, .tail (.single hvw) hwv⟩

/-- `[f x]` comes to `[f [[] z]]`, with the rules in the reverse order of the names, while `v` does
not come to an end. -/
theorem resolution_exact_entangled :
    let es := entangled.entries.reverse
    let fx : Term := .ofForm (.group [.word "f", .word "x"])
    let n : Term := .ofForm (.group [.word "f", .group [.group [], .word "z"]])
    Engine.Filled .standard {} ∧ es.Perm entangled.entries ∧
    (∀ a u, entangled.get? a = some u → u.Collapsed) ∧ fx.Collapsed ∧
    Engine.Answers .standard {} (.normalize (.ofEntries .standard es) fx) n ∧
    ¬ ∃ u : Term, Engine.Answers .standard {}
      (.normalize (.ofEntries .standard es) (.atom ⟨"v"⟩)) u := by
  intro es fx n
  have h : Engine.Filled .standard {} := .fresh
  have hes : es.Perm entangled.entries := List.reverse_perm _
  have hfx : fx.Collapsed := Term.collapsed_ofForm _
  have hx : entangled.Resolves (.atom ⟨"x"⟩) (.seq [.seq [], .atom ⟨"z"⟩]) :=
    .bound rfl nofun (.seq (.cons (.bound rfl nofun (.seq .nil)) (.cons (.itself rfl) .nil)))
  have hn : entangled.Resolves fx n := .seq (.cons (.unbound rfl) (.cons hx .nil))
  refine ⟨h, hes, collapsed_entangled, hfx, ?_, fun hv => ?_⟩
  · exact ((resolution_exact h hes collapsed_entangled hfx).2.1 n).mpr hn
  · exact (resolution_exact h hes collapsed_entangled (Term.collapsed_atom _)).1.mp hv
      circular_entangled

end ScopedRewriting
