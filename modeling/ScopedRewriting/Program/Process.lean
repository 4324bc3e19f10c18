import ScopedRewriting.Engine.Normalize
import ScopedRewriting.Program.Files
import ScopedRewriting.Program.Options
import ScopedRewriting.Source.Reader

/-!
# Processing a source

A source is read, shared and evaluated, as far as the options permit. The result is the text to
print for the term that the last stage yields.
-/

namespace ScopedRewriting

inductive Failure where
  | read (e : ReadError)
  | notText
  | file (e : FileError)
deriving DecidableEq

def ReadError.tag : ReadError → String
  | .unclosedComment => "UnclosedComment"
  | .unmatchedParen => "UnmatchedRPar"
  | .unmatchedBracket => "UnmatchedRBrk"
  | .unclosedBracket => "UnclosedLBrk"
  | .expectedWord => "ExpectedWord"
  | .expectedTerm => "ExpectedTerm"
  | .trailingTokens => "TrailingTokens"

def Failure.description : Failure → String
  | .read e => "Ms(Parse(" ++ e.tag ++ "))"
  | .notText => "Io(" ++ notTextDescription ++ ")"
  | .file e => "Io(" ++ e.description ++ ")"

section

variable {m : Type → Type} [Monad m] [MonadRequest m]

def process (π : Policy) (fuel : Nat) (o : Options) (path : String) (source : ByteArray) :
    m (Except Failure String) :=
  match String.fromUTF8? source with
  | none => return .error .notText
  | some text => do
      note (.parsing path)
      match Form.parse text with
      | .error e => return .error (.read e)
      | .ok form =>
          if o.omits .share then
            return .ok (form.text ++ "\n")
          let t ← form.share
          if o.omits .eval then
            return .ok (o.render t)
          note (.evaluating path)
          let normal ← evaluate π fuel t
          note (.cacheSize (← request .cacheSize))
          return .ok (o.render normal)

def processFile (π : Policy) (fuel : Nat) (o : Options) (path : String) :
    Contents → m (Except Failure String)
  | .error e => return .error (.file e)
  | .ok source => process π fuel o path source

end

end ScopedRewriting
