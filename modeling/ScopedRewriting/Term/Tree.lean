import ScopedRewriting.Term.Basic

/-!
# Drawing terms as trees

A drawing has one line per leaf. The first element of a sequence stands on the line of the sequence
itself; all others begin lines of their own. A drawing can also be written from top to bottom, if
what stands in front of the lines of an element is handed down to it (`Term.write?`).
-/

namespace ScopedRewriting

namespace Term

/-- How an element hangs on its sequence: what stands before its first line, and before its other
lines. -/
structure Branch where
  head : String
  indent : String

def Branch.first : Branch := ⟨"┬─", "│ "⟩

def Branch.middle : Branch := ⟨"├─", "│ "⟩

def Branch.last : Branch := ⟨"└─", "  "⟩

/-- Puts the drawing of an element behind its branch. -/
def Branch.attach (b : Branch) : List String → List String
  | [] => []
  | l :: ls => (b.head ++ l) :: ls.map (b.indent ++ ·)

mutual
/-- The lines of a term that hangs on a branch. -/
def drawing : Term → List String
  | .atom a => [" " ++ a.name]
  | .seq [] => [" []"]
  | .seq (t :: ts) => Branch.first.attach t.drawing ++ drawingRest ts

/-- The lines of the elements behind the first one. -/
def drawingRest : List Term → List String
  | [] => []
  | [t] => Branch.last.attach t.drawing
  | t :: ts => Branch.middle.attach t.drawing ++ drawingRest ts
end

/-- The lines of the drawing of a whole term, a leaf standing alone without a branch. -/
def treeLines : Term → List String
  | .seq (t :: ts) => drawing (.seq (t :: ts))
  | t => [t.text]

/-- The drawing, every line ended by a line feed. -/
def tree (t : Term) : String :=
  String.join (t.treeLines.map (· ++ "\n"))

mutual
/-- The atoms and empty sequences that the term consists of, from left to right. -/
def leaves : Term → List Term
  | .seq (t :: ts) => t.leaves ++ leavesAll ts
  | t => [t]

def leavesAll : List Term → List Term
  | [] => []
  | t :: ts => t.leaves ++ leavesAll ts
end

theorem leavesAll_eq_flatMap (ts : List Term) : leavesAll ts = ts.flatMap leaves := by
  induction ts with
  | nil => rfl
  | cons t ts ih => simp [leavesAll, ih]

/-- The branch of the element at index `i`, where `last` is the index of the last element. -/
def Branch.ofIndex (last i : Nat) : Branch :=
  if i = 0 then .first else if i = last then .last else .middle

/-- The index of the last of `n` elements. There is none if there are no elements. -/
def lastIndex? (n : Nat) : Option Nat :=
  if n = 0 then none else some (n - 1)

mutual
/-- Writes an element behind its branch. The margin stands in front of all its lines but the
first. -/
def writeElement? (margin : String) : Term → Option String
  | .seq (t :: ts) => do
      let last ← lastIndex? (t :: ts).length
      writeElements? margin last 0 (t :: ts)
  | t => some (" " ++ t.text ++ "\n")

/-- Writes the elements of a sequence from index `i` on. -/
def writeElements? (margin : String) (last i : Nat) : List Term → Option String
  | [] => some ""
  | t :: ts => do
      let branch := Branch.ofIndex last i
      let element ← writeElement? (margin ++ branch.indent) t
      let others ← writeElements? margin last (i + 1) ts
      return (if i = 0 then "" else margin) ++ branch.head ++ element ++ others
end

/-- Writes the drawing of a whole term. -/
def write? : Term → Option String
  | .seq (t :: ts) => writeElement? "" (.seq (t :: ts))
  | t => some (t.text ++ "\n")

end Term

end ScopedRewriting
