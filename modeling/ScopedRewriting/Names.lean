import Std.Data.HashSet
import ScopedRewriting.Term.Basic

/-!
# The table of names in use

An engine keeps every atom that it has met, once.
-/

namespace ScopedRewriting

structure Names where
  table : Std.HashSet Atom
deriving Inhabited

namespace Names

def empty : Names := ⟨∅⟩

instance : Membership Atom Names := ⟨fun names a => a ∈ names.table⟩

/-- Adds an atom unless it is there already. -/
def insert (names : Names) (a : Atom) : Names := ⟨names.table.insert a⟩

def contains (names : Names) (a : Atom) : Bool := names.table.contains a

def size (names : Names) : Nat := names.table.size

theorem mem_def {names : Names} {a : Atom} : a ∈ names ↔ a ∈ names.table := Iff.rfl

theorem mem_insert {names : Names} {a b : Atom} : b ∈ names.insert a ↔ a = b ∨ b ∈ names := by
  rw [mem_def, mem_def, insert, Std.HashSet.mem_insert, beq_iff_eq]

theorem not_mem_empty (a : Atom) : ¬ a ∈ empty := by
  rw [mem_def]
  exact Std.HashSet.not_mem_empty

theorem size_eq_of_mem_iff {names others : Names} (h : ∀ a, a ∈ names ↔ a ∈ others) :
    names.size = others.size :=
  (Std.HashSet.Equiv.of_forall_mem_iff h).size_eq

end Names

end ScopedRewriting
