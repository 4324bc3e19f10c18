import ScopedRewriting.Source.Form

/-!
# Terms

A term is an atom or a sequence of terms. Groups of a single term are that term (`Term.group`), so
sequences that are built by `Term.group` never have length one. A sequence `[p -> r s]` is a
directive: it declares the rule from `p` to `r` in `s`.
-/

namespace ScopedRewriting

/-- An atom is known by its name. -/
structure Atom where
  name : String
deriving DecidableEq, Hashable, Inhabited

namespace Atom

/-- The atom that makes a sequence a directive. -/
def arrow : Atom := ⟨"->"⟩

/-- The atom whose marked form is the joker. -/
def joker : Atom := ⟨"_"⟩

/-- The atom that stands for `a` as a pattern variable. -/
def marked (a : Atom) : Atom := ⟨"'" ++ a.name⟩

/-- The atom that `a` stands for if it is marked as a pattern variable. -/
def unmarked? (a : Atom) : Option Atom :=
  match a.name.toList with
  | [] => none
  | c :: cs => if c == quoteMark then some ⟨String.ofList cs⟩ else none

theorem unmarked?_eq_some_iff {a v : Atom} : a.unmarked? = some v ↔ a = v.marked := by
  obtain ⟨name⟩ := a
  obtain ⟨name'⟩ := v
  have hmarked : (Atom.mk name = marked ⟨name'⟩) ↔ name.toList = quoteMark :: name'.toList := by
    rw [marked, Atom.mk.injEq, ← String.toList_inj, String.toList_append]
    rfl
  rw [hmarked, unmarked?]
  cases name.toList with
  | nil => simp
  | cons c cs => simp [← String.toList_inj]

@[simp]
theorem unmarked?_marked (a : Atom) : a.marked.unmarked? = some a :=
  unmarked?_eq_some_iff.mpr rfl

end Atom

inductive Term where
  | atom (a : Atom)
  | seq (ts : List Term)
deriving Inhabited

namespace Term

mutual
/-- Terms are compared by structure; shared parts are equal at once. -/
def decEq (t u : Term) : Decidable (t = u) :=
  withPtrEqDecEq t u fun _ =>
    match t, u with
    | .atom a, .atom b =>
        if h : a = b then isTrue (congrArg Term.atom h) else isFalse fun e => h (Term.atom.inj e)
    | .seq ts, .seq us =>
        match decEqAll ts us with
        | isTrue h => isTrue (congrArg Term.seq h)
        | isFalse h => isFalse fun e => h (Term.seq.inj e)
    | .atom _, .seq _ => isFalse nofun
    | .seq _, .atom _ => isFalse nofun

def decEqAll (ts us : List Term) : Decidable (ts = us) :=
  withPtrEqDecEq ts us fun _ =>
    match ts, us with
    | [], [] => isTrue rfl
    | t :: ts, u :: us =>
        match decEq t u with
        | isFalse h => isFalse fun e => h (List.cons.inj e).1
        | isTrue h =>
            match decEqAll ts us with
            | isFalse h' => isFalse fun e => h' (List.cons.inj e).2
            | isTrue h' => isTrue (h ▸ h' ▸ rfl)
    | [], _ :: _ => isFalse nofun
    | _ :: _, [] => isFalse nofun
end

instance : DecidableEq Term := decEq

mutual
def digest : Term → UInt64
  | .atom a => mixHash 11 (hash a)
  | .seq ts => digestAll 13 ts

def digestAll (seed : UInt64) : List Term → UInt64
  | [] => seed
  | t :: ts => digestAll (mixHash seed t.digest) ts
end

instance : Hashable Term := ⟨digest⟩

/-- The sequence of the given terms, or the only one of them. -/
def group : List Term → Term
  | [t] => t
  | ts => .seq ts

theorem group_eq_seq {ts : List Term} (h : ts.length ≠ 1) : group ts = .seq ts := by
  unfold group
  split
  · exact absurd rfl h
  · rfl

theorem group_of {P : Term → Prop} {ts : List Term} (h : ∀ t ∈ ts, P t)
    (hseq : ts.length ≠ 1 → P (seq ts)) : P (group ts) := by
  by_cases hlen : ts.length = 1
  · obtain ⟨t, rfl⟩ := List.length_eq_one_iff.mp hlen
    exact h t (by simp)
  · rw [group_eq_seq hlen]
    exact hseq hlen

/-- The parts of a directive `[pattern -> replacement subject]`. -/
structure Directive where
  pattern : Term
  replacement : Term
  subject : Term
deriving DecidableEq, Inhabited

def Directive.toTerm (d : Directive) : Term :=
  .seq [d.pattern, .atom .arrow, d.replacement, d.subject]

def directive? : Term → Option Directive
  | .seq [p, .atom a, r, s] => if a = .arrow then some ⟨p, r, s⟩ else none
  | _ => none

theorem directive?_eq_some_iff {t : Term} {d : Directive} :
    t.directive? = some d ↔ t = d.toTerm := by
  constructor
  · unfold directive?
    split
    · split
      · next h => rintro ⟨⟩; simp [Directive.toTerm, h]
      · simp
    · simp
  · rintro rfl
    simp [Directive.toTerm, directive?]

def atom? : Term → Option Atom
  | .atom a => some a
  | .seq _ => none

def length? : Term → Option Nat
  | .atom _ => none
  | .seq ts => some ts.length

mutual
def text : Term → String
  | .atom a => a.name
  | .seq ts => bracketed (texts ts)

def texts : List Term → List String
  | [] => []
  | t :: ts => t.text :: texts ts
end

theorem texts_eq_map (ts : List Term) : texts ts = ts.map text := by
  induction ts with
  | nil => rfl
  | cons t ts ih => simp [texts, ih]

mutual
/-- The term that a form says: quoted words are marked atoms, groups of one element that element. -/
def ofForm : Form → Term
  | .word w => .atom ⟨w⟩
  | .quoted w => .atom (.marked ⟨w⟩)
  | .group fs => group (ofForms fs)

def ofForms : List Form → List Term
  | [] => []
  | f :: fs => ofForm f :: ofForms fs
end

theorem ofForms_eq_map (fs : List Form) : ofForms fs = fs.map ofForm := by
  induction fs with
  | nil => rfl
  | cons f fs ih => simp [ofForms, ih]

mutual
/-- The occurrences of atoms in the term, from left to right. -/
def atoms : Term → List Atom
  | .atom a => [a]
  | .seq ts => atomsAll ts

def atomsAll : List Term → List Atom
  | [] => []
  | t :: ts => t.atoms ++ atomsAll ts
end

theorem atomsAll_eq_flatMap (ts : List Term) : atomsAll ts = ts.flatMap atoms := by
  induction ts with
  | nil => rfl
  | cons t ts ih => simp [atomsAll, ih]

end Term

end ScopedRewriting
