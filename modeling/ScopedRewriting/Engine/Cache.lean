import Std.Data.HashMap
import ScopedRewriting.Scope.Basic

/-!
# Known normal forms

A cache maps a scope and a term to the normal form of the term in the scope.
-/

namespace ScopedRewriting

structure Cache where
  table : Std.HashMap (Scope × Term) Term
deriving Inhabited

namespace Cache

def empty : Cache := ⟨∅⟩

def get? (c : Cache) (s : Scope) (t : Term) : Option Term := c.table[(s, t)]?

/-- Stores a normal form, instead of the one that was stored before. -/
def insert (c : Cache) (s : Scope) (t normal : Term) : Cache := ⟨c.table.insert (s, t) normal⟩

def size (c : Cache) : Nat := c.table.size

@[simp]
theorem get?_empty (s : Scope) (t : Term) : empty.get? s t = none :=
  Std.HashMap.getElem?_empty

theorem get?_insert (c : Cache) (s s' : Scope) (t t' n : Term) :
    (c.insert s t n).get? s' t' = if s = s' ∧ t = t' then some n else c.get? s' t' := by
  simp [get?, insert, Std.HashMap.getElem?_insert]

theorem size_eq_of_get?_eq {c d : Cache} (h : ∀ s t, c.get? s t = d.get? s t) : c.size = d.size :=
  (Std.HashMap.Equiv.of_forall_getElem?_eq fun k => h k.1 k.2).size_eq

end Cache

end ScopedRewriting
