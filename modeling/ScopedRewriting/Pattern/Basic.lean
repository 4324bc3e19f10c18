import ScopedRewriting.Term.Basic

/-!
# Patterns

A pattern is made from a term: marked atoms are variables, all other atoms stand for themselves,
and the marked joker matches anything without binding it. No directive may occur in the term.
-/

namespace ScopedRewriting

inductive Pattern where
  | lit (a : Atom)
  /-- Matches any term and binds the variable to it. -/
  | var (v : Atom)
  /-- Matches sequences of the same length, element by element. -/
  | seq (ps : List Pattern)
  | joker
deriving Inhabited

namespace Pattern

mutual
/-- Patterns are compared by structure; shared parts are equal at once. -/
def decEq (p q : Pattern) : Decidable (p = q) :=
  withPtrEqDecEq p q fun _ =>
    match p, q with
    | .lit a, .lit b =>
        if h : a = b then isTrue (congrArg Pattern.lit h)
        else isFalse fun e => h (Pattern.lit.inj e)
    | .var a, .var b =>
        if h : a = b then isTrue (congrArg Pattern.var h)
        else isFalse fun e => h (Pattern.var.inj e)
    | .seq ps, .seq qs =>
        match decEqAll ps qs with
        | isTrue h => isTrue (congrArg Pattern.seq h)
        | isFalse h => isFalse fun e => h (Pattern.seq.inj e)
    | .joker, .joker => isTrue rfl
    | .lit _, .var _ | .lit _, .seq _ | .lit _, .joker => isFalse nofun
    | .var _, .lit _ | .var _, .seq _ | .var _, .joker => isFalse nofun
    | .seq _, .lit _ | .seq _, .var _ | .seq _, .joker => isFalse nofun
    | .joker, .lit _ | .joker, .var _ | .joker, .seq _ => isFalse nofun

def decEqAll (ps qs : List Pattern) : Decidable (ps = qs) :=
  withPtrEqDecEq ps qs fun _ =>
    match ps, qs with
    | [], [] => isTrue rfl
    | p :: ps, q :: qs =>
        match decEq p q with
        | isFalse h => isFalse fun e => h (List.cons.inj e).1
        | isTrue h =>
            match decEqAll ps qs with
            | isFalse h' => isFalse fun e => h' (List.cons.inj e).2
            | isTrue h' => isTrue (h ▸ h' ▸ rfl)
    | [], _ :: _ => isFalse nofun
    | _ :: _, [] => isFalse nofun
end

instance : DecidableEq Pattern := decEq

mutual
def digest : Pattern → UInt64
  | .lit a => mixHash 17 (hash a)
  | .var v => mixHash 19 (hash v)
  | .seq ps => digestAll 23 ps
  | .joker => 29

def digestAll (seed : UInt64) : List Pattern → UInt64
  | [] => seed
  | p :: ps => digestAll (mixHash seed p.digest) ps
end

instance : Hashable Pattern := ⟨digest⟩

mutual
/-- The written form, which is that of the term the pattern was made from. -/
def text : Pattern → String
  | .lit a => a.name
  | .var v => v.marked.name
  | .seq ps => bracketed (texts ps)
  | .joker => Atom.joker.marked.name

def texts : List Pattern → List String
  | [] => []
  | p :: ps => p.text :: texts ps
end

def ofAtom (a : Atom) : Pattern :=
  match a.unmarked? with
  | none => .lit a
  | some v => if v = .joker then .joker else .var v

mutual
/-- The pattern that a term says, unless a directive occurs in the term. -/
def ofTerm? (t : Term) : Option Pattern :=
  match t with
  | .atom a => some (ofAtom a)
  | .seq ts =>
      match (Term.seq ts).directive? with
      | some _ => none
      | none => (ofTerms? ts).map .seq

def ofTerms? (ts : List Term) : Option (List Pattern) :=
  match ts with
  | [] => some []
  | t :: ts =>
      match ofTerm? t with
      | none => none
      | some p => (ofTerms? ts).map (p :: ·)
end

mutual
/-- The variables of the pattern, one for each occurrence, from left to right. -/
def vars : Pattern → List Atom
  | .lit _ => []
  | .var v => [v]
  | .seq ps => varsAll ps
  | .joker => []

def varsAll : List Pattern → List Atom
  | [] => []
  | p :: ps => p.vars ++ varsAll ps
end

mutual
/-- The atoms that stand for themselves, one for each occurrence, from left to right. -/
def literals : Pattern → List Atom
  | .lit a => [a]
  | .var _ => []
  | .seq ps => literalsAll ps
  | .joker => []

def literalsAll : List Pattern → List Atom
  | [] => []
  | p :: ps => p.literals ++ literalsAll ps
end

mutual
/-- The variables that stand in a term to the left of the first directive. These are the atoms
that are looked at while the term is made a pattern. -/
def varsBeforeDirective (t : Term) : List Atom :=
  match t with
  | .atom a => (ofAtom a).vars
  | .seq ts =>
      match (Term.seq ts).directive? with
      | some _ => []
      | none => varsBeforeDirectives ts

def varsBeforeDirectives (ts : List Term) : List Atom :=
  match ts with
  | [] => []
  | t :: ts =>
      match ofTerm? t with
      | none => varsBeforeDirective t
      | some p => p.vars ++ varsBeforeDirectives ts
end

mutual
/-- The term that says the pattern. -/
def toTerm : Pattern → Term
  | .lit a => .atom a
  | .var v => .atom v.marked
  | .seq ps => .seq (toTerms ps)
  | .joker => .atom Atom.joker.marked

def toTerms : List Pattern → List Term
  | [] => []
  | p :: ps => p.toTerm :: toTerms ps
end

end Pattern

end ScopedRewriting
