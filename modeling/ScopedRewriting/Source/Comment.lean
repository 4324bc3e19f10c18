import ScopedRewriting.Source.Lexer

/-!
# Comments by byte offsets

A text in UTF-8 can be passed in steps of bytes, from one parenthesis to the next, with a count of
the comments that are open. `passComments` does so and `splitComment` takes one character after the
other.
-/

namespace ScopedRewriting

def isParen (c : Char) : Bool :=
  c == '(' || c == ')'

/-- The byte offset of the first parenthesis. -/
def parenOffset? : List Char → Option Nat
  | [] => none
  | c :: cs => if isParen c then some 0 else (parenOffset? cs).map (c.utf8Size + ·)

/-- The text behind its first `n` bytes; there is none if they end inside of a character or the text
is shorter. -/
def behindBytes? : Nat → List Char → Option (List Char)
  | 0, cs => some cs
  | _ + 1, [] => none
  | n + 1, c :: cs => if c.utf8Size ≤ n + 1 then behindBytes? (n + 1 - c.utf8Size) cs else none

theorem length_behindBytes_le {n : Nat} {cs rest : List Char}
    (h : behindBytes? n cs = some rest) : rest.length ≤ cs.length := by
  induction cs generalizing n with
  | nil => cases n <;> cases h; simp
  | cons c cs ih =>
      cases n with
      | zero => cases h; simp
      | succ n =>
          rw [behindBytes?] at h
          split at h
          · exact Nat.le_succ_of_le (ih h)
          · cases h

theorem length_behindBytes_lt {n : Nat} {cs rest : List Char}
    (h : behindBytes? (n + 1) cs = some rest) : rest.length < cs.length := by
  cases cs with
  | nil => cases h
  | cons c cs =>
      rw [behindBytes?] at h
      split at h
      · exact Nat.lt_succ_of_le (length_behindBytes_le h)
      · cases h

/-- Passes the text until no comment is open. The answer says whether this happens before the text
ends, and how many bytes are passed in the end if `passed` bytes were passed before. There is none
if a step does not end between characters. -/
def passComments (opened passed : Nat) (cs : List Char) : Option (Bool × Nat) :=
  if opened = 0 then
    some (true, passed)
  else
    match parenOffset? cs with
    | none => some (false, passed + (String.ofList cs).utf8ByteSize)
    | some i =>
        match h : behindBytes? (i + 1) cs with
        | none => none
        | some rest => do
            let paren ← behindBytes? i cs
            let opened := if paren.head? = some '(' then opened + 1 else opened - 1
            passComments opened (passed + (i + 1)) rest
termination_by cs.length
decreasing_by exact length_behindBytes_lt h

end ScopedRewriting
