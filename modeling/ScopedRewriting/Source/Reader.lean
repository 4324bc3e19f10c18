import ScopedRewriting.Source.Form
import ScopedRewriting.Source.Lexer

/-!
# Reading forms from tokens

The reader is an automaton that takes one token at a time. Its state holds the groups that are
still open and whether a quote waits for its word. Main statement: a reading that finds anything
consumes at least one token (`Form.length_read_lt`), so repeated readings come to an end.
-/

namespace ScopedRewriting

inductive ReadError where
  | unclosedComment
  | unmatchedParen
  | unmatchedBracket
  | unclosedBracket
  | expectedWord
  | expectedTerm
  | trailingTokens
deriving DecidableEq, Inhabited

def ReadError.message : ReadError → String
  | .unclosedComment => "unclosed comment"
  | .unmatchedParen => "unmatched closing parenthesis"
  | .unmatchedBracket => "unmatched closing bracket"
  | .unclosedBracket => "unclosed bracket"
  | .expectedWord => "expected word after quote"
  | .expectedTerm => "expected term"
  | .trailingTokens => "trailing tokens after term"

structure Reader where
  /-- The elements of the groups that are still open, the innermost group and the last element
  first. -/
  groups : List (List Form)
  /-- Whether a quote waits for its word. -/
  quoting : Bool
deriving Inhabited

namespace Reader

/-- The reader before the first token of a form. -/
def start : Reader := ⟨[], false⟩

/-- What a token leads to: the end of the reading, or a reader that wants more. -/
inductive Progress where
  | done (result : Except ReadError Form)
  | more (reader : Reader)

/-- A complete form ends the reading, or becomes an element of the innermost open group. -/
def place (form : Form) : List (List Form) → Progress
  | [] => .done (.ok form)
  | group :: groups => .more ⟨(form :: group) :: groups, false⟩

/-- A quote accepts nothing but a word behind it. -/
def feed (r : Reader) : Token → Progress
  | .space => .more r
  | .unclosedComment => .done (.error .unclosedComment)
  | .word w => place (if r.quoting then .quoted w else .word w) r.groups
  | token =>
      if r.quoting then
        .done (.error .expectedWord)
      else
        match token, r.groups with
        | .openBracket, groups => .more ⟨[] :: groups, false⟩
        | .closeBracket, [] => .done (.error .unmatchedBracket)
        | .closeBracket, group :: groups => place (.group group.reverse) groups
        | .quote, groups => .more ⟨groups, true⟩
        | _, _ => .done (.error .unmatchedParen)

/-- The end of the tokens is an error inside of a form. -/
def finish (r : Reader) : Except ReadError (Option Form) :=
  if r.quoting then .error .expectedWord
  else if r.groups.isEmpty then .ok none
  else .error .unclosedBracket

/-- Feeds tokens until the reading ends; answers its result and the tokens that are left. -/
def run (r : Reader) : List Token → Except ReadError (Option Form) × List Token
  | [] => (r.finish, [])
  | token :: tokens =>
      match r.feed token with
      | .done result => (result.map some, tokens)
      | .more r => r.run tokens

theorem length_run_le (r : Reader) (tokens : List Token) :
    (r.run tokens).2.length ≤ tokens.length := by
  induction tokens generalizing r with
  | nil => simp [run]
  | cons token tokens ih =>
      simp only [run]
      split
      · simp
      · next r' _ => exact Nat.le_succ_of_le (ih r')

end Reader

namespace Form

/-- Reads the next form of a token list; the answer is `none` if there are only spaces left. -/
def read (tokens : List Token) : Except ReadError (Option Form) × List Token :=
  Reader.start.run tokens

theorem length_read_lt {tokens rest : List Token} {result : Except ReadError (Option Form)}
    (h : read tokens = (result, rest)) (hne : result ≠ .ok none) :
    rest.length < tokens.length := by
  cases tokens with
  | nil =>
      simp only [read, Reader.run, Prod.mk.injEq] at h
      exact absurd h.1.symm hne
  | cons token tokens =>
      simp only [read, Reader.run] at h
      split at h
      · cases h
        simp
      · next r _ =>
        have := Reader.length_run_le r tokens
        rw [h] at this
        exact Nat.lt_succ_of_le this

/-- Reads forms until the tokens are exhausted, going on behind every error. -/
def readAll (tokens : List Token) : List (Except ReadError Form) :=
  match _h : read tokens with
  | (.ok none, _) => []
  | (.ok (some form), rest) => .ok form :: readAll rest
  | (.error e, rest) => .error e :: readAll rest
termination_by tokens.length
decreasing_by all_goals exact length_read_lt ‹_› (by simp)

/-- Nothing but space may follow the single form of a text. -/
def checkEnd : List Token → Except ReadError Unit
  | [] => .ok ()
  | .space :: tokens => checkEnd tokens
  | .unclosedComment :: _ => .error .unclosedComment
  | .closeParen :: _ => .error .unmatchedParen
  | _ => .error .trailingTokens

/-- Reads a text that consists of exactly one form. -/
def parse (text : String) : Except ReadError Form :=
  match read (Token.significant text) with
  | (.error e, _) => .error e
  | (.ok none, _) => .error .expectedTerm
  | (.ok (some form), rest) => (checkEnd rest).map fun _ => form

end Form

end ScopedRewriting
