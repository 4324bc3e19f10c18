import ScopedRewriting.Bindings
import ScopedRewriting.Term.Subterm

/-!
# Replacing atoms by terms

All occurrences of bound atoms are replaced at once; what they are replaced by is left as it is.
-/

namespace ScopedRewriting

namespace Term

mutual
/-- The term with every bound atom replaced by the term it is bound to. -/
def substitute (b : Bindings) : Term → Term
  | .atom a => (b.get? a).getD (.atom a)
  | .seq ts => .seq (substituteAll b ts)

def substituteAll (b : Bindings) : List Term → List Term
  | [] => []
  | t :: ts => t.substitute b :: substituteAll b ts
end

theorem substituteAll_eq_map (b : Bindings) (ts : List Term) :
    substituteAll b ts = ts.map (substitute b) := by
  induction ts with
  | nil => rfl
  | cons t ts ih => simp [substituteAll, ih]

variable {b : Bindings} {t : Term}

theorem map_substitute_eq_self_iff {ts : List Term} :
    ts.map (substitute b) = ts ↔ ∀ t ∈ ts, t.substitute b = t := by
  have hid : ts.map (substitute b) = ts.map id ↔ ∀ t ∈ ts, t.substitute b = id t :=
    List.map_inj_left
  simpa using hid

theorem substitute_eq_self_iff :
    t.substitute b = t ↔ ∀ a ∈ t.atoms, ∀ v ∈ b.get? a, v = .atom a := by
  induction t using induct with
  | atom a => cases hv : b.get? a <;> simp [substitute, atoms, hv]
  | seq ts ih =>
      simp only [substitute, substituteAll_eq_map, seq.injEq, map_substitute_eq_self_iff, atoms,
        atomsAll_eq_flatMap, List.mem_flatMap]
      constructor
      · rintro h a ⟨t, ht, ha⟩
        exact (ih t ht).mp (h t ht) a ha
      · intro h t ht
        exact (ih t ht).mpr fun a ha => h a ⟨t, ht, ha⟩

theorem mem_atoms_substitute_iff {x : Atom} :
    x ∈ (t.substitute b).atoms ↔ ∃ a ∈ t.atoms, x ∈ ((atom a).substitute b).atoms := by
  induction t using induct with
  | atom a => simp [atoms]
  | seq ts ih =>
      simp only [substitute, substituteAll_eq_map, atoms, atomsAll_eq_flatMap, List.mem_flatMap,
        List.mem_map]
      constructor
      · rintro ⟨_, ⟨t, ht, rfl⟩, hx⟩
        obtain ⟨a, ha, hx⟩ := (ih t ht).mp hx
        exact ⟨a, ⟨t, ht, ha⟩, hx⟩
      · rintro ⟨a, ⟨t, ht, ha⟩, hx⟩
        exact ⟨_, ⟨t, ht, rfl⟩, (ih t ht).mpr ⟨a, ha, hx⟩⟩

theorem collapsed_substitute (ht : t.Collapsed) (hb : ∀ a u, b.get? a = some u → u.Collapsed) :
    (t.substitute b).Collapsed := by
  induction t using induct with
  | atom a =>
      cases hu : b.get? a with
      | none => simpa [substitute, hu] using ht
      | some u => simpa [substitute, hu] using hb a u hu
  | seq ts ih =>
      obtain ⟨hlen, hts⟩ := collapsed_seq_iff.mp ht
      rw [substitute, substituteAll_eq_map, collapsed_seq_iff, List.length_map]
      refine ⟨hlen, fun u hu => ?_⟩
      obtain ⟨t, ht, rfl⟩ := List.mem_map.mp hu
      exact ih t ht (hts t ht)

mutual
def rename (f : Atom → Atom) : Term → Term
  | .atom a => .atom (f a)
  | .seq ts => .seq (renameAll f ts)

def renameAll (f : Atom → Atom) : List Term → List Term
  | [] => []
  | t :: ts => t.rename f :: renameAll f ts
end

theorem renameAll_eq_map (f : Atom → Atom) (ts : List Term) :
    renameAll f ts = ts.map (rename f) := by
  induction ts with
  | nil => rfl
  | cons t ts ih => simp [renameAll, ih]

end Term

end ScopedRewriting
