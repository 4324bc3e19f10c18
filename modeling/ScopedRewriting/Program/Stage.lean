/-!
# Stages of a program run

A program is shared, then evaluated. To omit a stage is to omit all later ones, too.
-/

namespace ScopedRewriting

inductive Stage where
  /-- The atoms of the program are interned. -/
  | share
  /-- The program is brought to normal form. -/
  | eval
deriving DecidableEq, Inhabited

namespace Stage

def ofName? (name : String) : Option Stage :=
  if name == "share" then some .share
  else if name == "eval" then some .eval
  else none

def unknown (name : String) : String := "unknown stage: " ++ name

def before : Stage → Stage → Bool
  | .share, .eval => true
  | _, _ => false

/-- Whether omitting the first stage omits the second one. -/
def omits (stage later : Stage) : Bool :=
  stage == later || stage.before later

end Stage

end ScopedRewriting
