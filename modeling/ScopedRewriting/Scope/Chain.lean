import ScopedRewriting.Scope.Basic

/-!
# Chains with identity

Two chains may have equal rules and yet be built apart. A chain carries a mark for each of its
links, and links with the same mark are one and the same link. Comparing chains stops at a link
that both share.
-/

namespace ScopedRewriting

/-- Whether two user-defined rules have equal patterns without being equal. -/
def Rule.conflicts (r q : Rule) : Bool :=
  r.pattern?.isSome && r.pattern? == q.pattern? && r != q

structure Chain where
  scope : Scope
  /-- The marks of the links, the most recent one first. -/
  marks : List Nat
deriving DecidableEq, Inhabited

namespace Chain

def empty : Chain := ⟨.nil, []⟩

/-- Adds a rule, in a link with a mark of its own. The empty rule adds nothing. -/
def extend (π : Policy) (c : Chain) (mark : Nat) : Rule → Chain
  | .empty => c
  | r => ⟨c.scope.extend π r, mark :: c.marks⟩

/-- Adds rules one after the other, with marks that count from `mark`; answers the next mark,
too. -/
def extendMany (π : Policy) (c : Chain) (mark : Nat) : List Rule → Chain × Nat
  | [] => (c, mark)
  | r :: rs => extendMany π (c.extend π mark r) (mark + 1) rs

/-- The chain of the declaration rule, in a link with the given mark. -/
def base (π : Policy) (mark : Nat) : Chain := empty.extend π mark .declaration

/-- Whether both are the same chain. All empty chains are. -/
def same (c d : Chain) : Bool :=
  c.marks.head? == d.marks.head?

/-- Compares link by link, up to the first link that both share. -/
def beqFrom : Scope → List Nat → Scope → List Nat → Bool
  | .nil, _, .nil, _ => true
  | .link h r s, ms, .link k q u, ns =>
      (ms.head?.isSome && ms.head? == ns.head?) ||
        (h == k && r == q && beqFrom s ms.tail u ns.tail)
  | .nil, _, .link .., _ => false
  | .link .., _, .nil, _ => false

def beq (c d : Chain) : Bool :=
  beqFrom c.scope c.marks d.scope d.marks

/-- Whether some rule of one conflicts with some rule of the other. A chain does not conflict with
itself. -/
def conflictsWith (c d : Chain) : Bool :=
  !c.same d && c.scope.rules.any fun r => d.scope.rules.any fun q => r.conflicts q

end Chain

end ScopedRewriting
