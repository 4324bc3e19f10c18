import ScopedRewriting.Pattern.Match

/-!
# Rules and scopes

A scope is a chain of the rules in force, the most recent one first. Every link of the chain stores
a hash of the rules from there on, so hashing a scope takes constant time. A user-defined rule keeps
the scope that it was declared in.
-/

namespace ScopedRewriting

mutual

inductive Rule where
  | empty
  /-- Makes a directive a rule, in force for the subject of the directive. -/
  | declaration
  | subst (atom : Atom) (term : Term)
  /-- Replaces what matches the pattern by the body, to be brought to normal form in the closure. -/
  | function (pattern : Pattern) (body : Term) (closure : Scope)

inductive Scope where
  | nil
  | link (hash : UInt64) (rule : Rule) (outer : Scope)

end

instance : Inhabited Rule := ⟨.empty⟩

instance : Inhabited Scope := ⟨.nil⟩

mutual
/-- Rules are compared by structure; shared parts are equal at once. -/
def Rule.decEq (r s : Rule) : Decidable (r = s) :=
  withPtrEqDecEq r s fun _ =>
    match r, s with
    | .empty, .empty => isTrue rfl
    | .declaration, .declaration => isTrue rfl
    | .subst a t, .subst b u =>
        if h : a = b ∧ t = u then isTrue (h.1 ▸ h.2 ▸ rfl)
        else isFalse fun e => h (Rule.subst.inj e)
    | .function p t c, .function q u d =>
        if h : p = q ∧ t = u then
          match Scope.decEq c d with
          | isTrue h' => isTrue (h.1 ▸ h.2 ▸ h' ▸ rfl)
          | isFalse h' => isFalse fun e => h' (Rule.function.inj e).2.2
        else isFalse fun e => h ⟨(Rule.function.inj e).1, (Rule.function.inj e).2.1⟩
    | .empty, .declaration | .empty, .subst .. | .empty, .function .. => isFalse nofun
    | .declaration, .empty | .declaration, .subst .. | .declaration, .function .. => isFalse nofun
    | .subst .., .empty | .subst .., .declaration | .subst .., .function .. => isFalse nofun
    | .function .., .empty | .function .., .declaration | .function .., .subst .. => isFalse nofun

/-- The stored hashes are compared before the rules. -/
def Scope.decEq (s u : Scope) : Decidable (s = u) :=
  withPtrEqDecEq s u fun _ =>
    match s, u with
    | .nil, .nil => isTrue rfl
    | .link h r s, .link k q u =>
        if hh : h = k then
          match Rule.decEq r q with
          | isFalse hr => isFalse fun e => hr (Scope.link.inj e).2.1
          | isTrue hr =>
              match Scope.decEq s u with
              | isFalse hs => isFalse fun e => hs (Scope.link.inj e).2.2
              | isTrue hs => isTrue (hh ▸ hr ▸ hs ▸ rfl)
        else isFalse fun e => hh (Scope.link.inj e).1
    | .nil, .link .. => isFalse nofun
    | .link .., .nil => isFalse nofun
end

instance : DecidableEq Rule := Rule.decEq

instance : DecidableEq Scope := Scope.decEq

namespace Scope

/-- Induction along the chain, closures left aside. -/
@[induction_eliminator]
theorem chainInduction {motive : Scope → Prop} (nil : motive .nil)
    (link : ∀ hash rule outer, motive outer → motive (.link hash rule outer)) (s : Scope) :
    motive s :=
  match s with
  | .nil => nil
  | .link hash rule outer => link hash rule outer (chainInduction nil link outer)

def hash : Scope → UInt64
  | .nil => 0
  | .link h _ _ => h

instance : Hashable Scope := ⟨hash⟩

/-- The rules, the most recent one first. -/
def rules : Scope → List Rule
  | .nil => []
  | .link _ r outer => r :: outer.rules

def size (s : Scope) : Nat := s.rules.length

def isEmpty : Scope → Bool
  | .nil => true
  | .link .. => false

end Scope

def Rule.pattern? : Rule → Option Pattern
  | .function p _ _ => some p
  | _ => none

/-- A hash of the rule, in which a closure counts by its stored hash. -/
def Rule.hash : Rule → UInt64
  | .empty => 31
  | .declaration => 37
  | .subst a t => mixHash 41 (mixHash (Hashable.hash a) t.digest)
  | .function p t c => mixHash 43 (mixHash p.digest (mixHash t.digest c.hash))

/-- What an engine may choose freely: how the hash of a link is computed, and in which order the
bindings of a match become the rules of a scope. -/
structure Policy where
  /-- The hash of a link with the given rule, in front of a chain with the given hash. -/
  digest : Rule → UInt64 → UInt64
  /-- The entries of bindings in the order in which they become rules, the oldest rule first. -/
  arrange : Bindings → Entries
  arrange_perm : ∀ b, (arrange b).Perm b.entries

/-- Mixes the hashes, and makes rules of bindings in the order of the names. -/
def Policy.standard : Policy where
  digest r h := mixHash r.hash h
  arrange b := b.entries
  arrange_perm _ := .refl _

instance : Inhabited Policy := ⟨.standard⟩

namespace Scope

variable (π : Policy)

/-- Adds a rule that takes precedence over all rules of the scope. The empty rule adds nothing. -/
def extend (s : Scope) : Rule → Scope
  | .empty => s
  | r => .link (π.digest r s.hash) r s

def extendMany (s : Scope) (rules : List Rule) : Scope :=
  rules.foldl (extend π) s

/-- Adds all rules of another scope in their order. -/
def extendAll (s other : Scope) : Scope :=
  s.extendMany π other.rules.reverse

def base : Scope := extend π .nil .declaration

/-- The scope that replaces every variable by the term it is bound to. -/
def ofBindings (b : Bindings) : Scope :=
  extendMany π .nil ((π.arrange b).map fun e => .subst e.1 e.2)

@[simp]
theorem rules_extend {s : Scope} {r : Rule} (h : r ≠ .empty) :
    (s.extend π r).rules = r :: s.rules := by
  cases r <;> first | exact absurd rfl h | rfl

end Scope

end ScopedRewriting
