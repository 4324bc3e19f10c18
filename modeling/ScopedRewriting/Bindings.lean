import ScopedRewriting.Term.Basic

/-!
# Bindings of pattern variables

Bindings are a finite map from variables to terms, kept in the order of the names. So bindings with
the same contents are equal (`Bindings.ext_get?`).
-/

namespace ScopedRewriting

theorem Atom.eq_of_not_lt {v w : Atom} (h : ¬ v.name < w.name) (h' : ¬ w.name < v.name) :
    v = w := by
  have := String.le_antisymm (String.not_lt.mp h') (String.not_lt.mp h)
  cases v
  cases w
  simp_all

abbrev Entries := List (Atom × Term)

namespace Entries

/-- The entries stand in the order of the names, at most one for each. -/
def Ascending (entries : Entries) : Prop :=
  entries.Pairwise fun e f => e.1.name < f.1.name

/-- The first entry for an atom. -/
def lookup (v : Atom) : Entries → Option Term
  | [] => none
  | (w, t) :: entries => if w = v then some t else lookup v entries

/-- Puts an entry at its place in the order, instead of one for the same atom. -/
def place (v : Atom) (t : Term) : Entries → Entries
  | [] => [(v, t)]
  | (w, u) :: entries =>
      if w.name < v.name then (w, u) :: place v t entries
      else if v.name < w.name then (v, t) :: (w, u) :: entries
      else (v, t) :: entries

theorem mem_place {v : Atom} {t : Term} {entries : Entries} {e : Atom × Term}
    (h : e ∈ place v t entries) : e = (v, t) ∨ e ∈ entries := by
  induction entries with
  | nil => simpa [place] using h
  | cons f entries ih =>
      obtain ⟨w, u⟩ := f
      simp only [place] at h
      split at h
      · rcases List.mem_cons.mp h with rfl | h
        · simp
        · rcases ih h with h | h <;> simp [h]
      · split at h
        · rcases List.mem_cons.mp h with rfl | h <;> simp_all
        · rcases List.mem_cons.mp h with rfl | h <;> simp [h]

theorem Ascending.place {v : Atom} {t : Term} {entries : Entries}
    (h : Ascending entries) : Ascending (place v t entries) := by
  induction entries with
  | nil => simp [Ascending, Entries.place]
  | cons f entries ih =>
      obtain ⟨w, u⟩ := f
      obtain ⟨hw, hs⟩ := List.pairwise_cons.mp h
      simp only [Entries.place]
      split
      · next hlt =>
        refine List.pairwise_cons.mpr ⟨fun e he => ?_, ih hs⟩
        rcases mem_place he with rfl | he
        · exact hlt
        · exact hw e he
      · split
        · next hlt =>
          refine List.pairwise_cons.mpr ⟨fun e he => ?_, h⟩
          rcases List.mem_cons.mp he with rfl | he
          · exact hlt
          · exact String.lt_trans hlt (hw e he)
        · next hge hle =>
          cases Atom.eq_of_not_lt hge hle
          exact List.pairwise_cons.mpr ⟨hw, hs⟩

theorem lookup_place {v w : Atom} {t : Term} {entries : Entries}
    (h : Ascending entries) :
    lookup w (place v t entries) = if v = w then some t else lookup w entries := by
  induction entries with
  | nil => simp [place, lookup]
  | cons f entries ih =>
      obtain ⟨x, u⟩ := f
      obtain ⟨_, hs⟩ := List.pairwise_cons.mp h
      simp only [place]
      split
      · next hlt =>
        have hne : x ≠ v := by
          rintro rfl
          exact String.lt_irrefl _ hlt
        simp only [lookup, ih hs]
        by_cases hx : x = w
        · subst hx
          simp [hne.symm]
        · simp [hx]
      · split
        · simp [lookup]
        · next hge hle =>
          cases Atom.eq_of_not_lt hge hle
          simp only [lookup]
          by_cases hx : v = w <;> simp [hx]

theorem lookup_eq_none_of_lt {v : Atom} {entries : Entries}
    (h : ∀ e ∈ entries, v.name < e.1.name) : lookup v entries = none := by
  induction entries with
  | nil => rfl
  | cons f entries ih =>
      obtain ⟨w, u⟩ := f
      have hne : w ≠ v := by
        rintro rfl
        exact String.lt_irrefl _ (h (w, u) (by simp))
      simp [lookup, hne, ih fun e he => h e (by simp [he])]

/-- Ascending entries are determined by what is found in them. -/
theorem Ascending.eq_of_lookup {as bs : Entries} (ha : Ascending as) (hb : Ascending bs)
    (h : ∀ v, lookup v as = lookup v bs) : as = bs := by
  induction as generalizing bs with
  | nil =>
      cases bs with
      | nil => rfl
      | cons f bs =>
          have := h f.1
          simp [lookup] at this
  | cons e as ih =>
      obtain ⟨v, t⟩ := e
      obtain ⟨hv, has⟩ := List.pairwise_cons.mp ha
      cases bs with
      | nil =>
          have := h v
          simp [lookup] at this
      | cons f bs =>
          obtain ⟨w, u⟩ := f
          obtain ⟨hw, hbs⟩ := List.pairwise_cons.mp hb
          have heq : v = w := by
            apply Atom.eq_of_not_lt
            · intro hlt
              have hnone : lookup v ((w, u) :: bs) = none := lookup_eq_none_of_lt fun g hg => by
                rcases List.mem_cons.mp hg with rfl | hg
                · exact hlt
                · exact String.lt_trans hlt (hw g hg)
              have := h v
              simp [lookup] at this hnone
              simp [hnone] at this
            · intro hlt
              have hnone : lookup w ((v, t) :: as) = none := lookup_eq_none_of_lt fun g hg => by
                rcases List.mem_cons.mp hg with rfl | hg
                · exact hlt
                · exact String.lt_trans hlt (hv g hg)
              have := h w
              simp [lookup] at this hnone
              simp [hnone] at this
          subst heq
          have htu : t = u := by simpa [lookup] using h v
          subst htu
          refine congrArg _ (ih has hbs fun x => ?_)
          by_cases hx : v = x
          · subst hx
            rw [lookup_eq_none_of_lt hv, lookup_eq_none_of_lt hw]
          · simpa [lookup, hx] using h x

end Entries

structure Bindings where
  entries : Entries
  ascending : entries.Ascending

namespace Bindings

theorem ext_entries {a b : Bindings} (h : a.entries = b.entries) : a = b := by
  cases a
  cases b
  cases h
  rfl

instance : DecidableEq Bindings := fun a b =>
  if h : a.entries = b.entries then isTrue (ext_entries h)
  else isFalse fun e => h (congrArg entries e)

def empty : Bindings := ⟨[], List.Pairwise.nil⟩

instance : Inhabited Bindings := ⟨empty⟩

def get? (b : Bindings) (v : Atom) : Option Term := Entries.lookup v b.entries

def insert (b : Bindings) (v : Atom) (t : Term) : Bindings :=
  ⟨Entries.place v t b.entries, b.ascending.place⟩

def single (v : Atom) (t : Term) : Bindings := empty.insert v t

def size (b : Bindings) : Nat := b.entries.length

def isEmpty (b : Bindings) : Bool := b.entries.isEmpty

@[simp]
theorem get?_empty (v : Atom) : empty.get? v = none := rfl

@[simp]
theorem get?_insert (b : Bindings) (v w : Atom) (t : Term) :
    (b.insert v t).get? w = if v = w then some t else b.get? w :=
  Entries.lookup_place b.ascending

theorem ext_get? {a b : Bindings} (h : ∀ v, a.get? v = b.get? v) : a = b :=
  ext_entries (a.ascending.eq_of_lookup b.ascending h)

/-- Adds a binding, unless the variable is bound to another term already. -/
def assign? (b : Bindings) (v : Atom) (t : Term) : Option Bindings :=
  match b.get? v with
  | none => some (b.insert v t)
  | some u => if t = u then some b else none

/-- All bindings of both, provided that no variable is bound to two different terms. -/
def merge (a b : Bindings) : Option Bindings :=
  b.entries.foldlM (fun c e => c.assign? e.1 e.2) a

/-- The bindings of both; the first one decides where both bind a variable. -/
def union (a b : Bindings) : Bindings :=
  a.entries.foldr (fun e c => c.insert e.1 e.2) b

/-- Does what `merge` does, and compares the entries only if both have some and are not equal. -/
def unite (a b : Bindings) : Option Bindings :=
  if a = b ∨ b.isEmpty then some a
  else if a.isEmpty then some b
  else if b.entries.all fun e => (a.get? e.1).all (e.2 == ·) then some (a.union b)
  else none

/-- The bindings in the order of the names. -/
def text (b : Bindings) : String :=
  "\x7b" ++ ", ".intercalate (b.entries.map fun e => e.1.name ++ " ↦ " ++ e.2.text) ++ "\x7d"

end Bindings

end ScopedRewriting
