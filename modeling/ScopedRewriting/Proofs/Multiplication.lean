import ScopedRewriting.Proofs.Instances
import ScopedRewriting.Proofs.Layout
import ScopedRewriting.Proofs.Nesting
import ScopedRewriting.Proofs.Stability

/-!
# Multiplication by rewriting

Four nested declarations say how numbers that are written with `Z` and `S` are added and multiplied.
Only one of the rules is in force at a time, so a product is taken apart completely before any of it
is added up. What is left in the end is the numeral of the product (`multiplication_evaluated`).
-/

namespace ScopedRewriting

/-! ## Declarations in texts -/

/-- The forms of the declarations, around the form of the subject. -/
def Term.Declaration.context (ds : List Declaration) : Form.Context :=
  ds.foldr (fun d c => .group [d.pattern.toForm, .word "->", d.replacement.toForm] c []) .hole

theorem Term.ofForm_fill_context {ds : List Declaration}
    (hds : ∀ d ∈ ds, d.pattern.Plain ∧ d.replacement.Plain) (f : Form) :
    ofForm ((Declaration.context ds).fill f) = declaring ds (ofForm f) := by
  induction ds with
  | nil => rfl
  | cons d ds ih =>
      obtain ⟨⟨hp, hr⟩, hds⟩ := List.forall_mem_cons.mp hds
      have hgroup : ofForm ((Declaration.context (d :: ds)).fill f) =
          group [ofForm d.pattern.toForm, .atom .arrow, ofForm d.replacement.toForm,
            ofForm ((Declaration.context ds).fill f)] := rfl
      rw [hgroup, ofForm_toForm hp.collapsed, ofForm_toForm hr.collapsed, ih hds]
      rfl

namespace Peano

variable {π : Policy} {body : Term}

/-! ## Expressions -/

inductive Operation where
  | add
  | mul

inductive Expression where
  | zero
  | succ (e : Expression)
  | apply (o : Operation) (e f : Expression)

def Operation.atom : Operation → Atom
  | add => ⟨"add"⟩
  | mul => ⟨"mul"⟩

theorem Operation.atom_injective : Function.Injective atom := by
  intro o o' h
  cases o <;> cases o' <;> simp_all [atom]

namespace Expression

def toTerm : Expression → Term
  | zero => .atom ⟨"Z"⟩
  | succ e => .seq [.atom ⟨"S"⟩, e.toTerm]
  | apply o e f => .seq [.atom o.atom, e.toTerm, f.toTerm]

def succs : Nat → Expression → Expression
  | 0, e => e
  | n + 1, e => succ (succs n e)

def numeral (n : Nat) : Expression := succs n zero

theorem succs_numeral (m n : Nat) : succs m (numeral n) = numeral (n + m) := by
  induction m with
  | zero => rfl
  | succ m ih => rw [succs, ih, ← Nat.add_assoc, numeral, numeral, succs]

theorem plain (e : Expression) : e.toTerm.Plain := by
  induction e with
  | zero => exact Term.plain_atom _
  | succ e ih => exact Term.plain_seq (by simp) (by simp) (by simp [Term.plain_atom, ih])
  | apply o e f he hf =>
      exact Term.plain_seq (by simp) (by simp) (by simp [Term.plain_atom, he, hf])

theorem spellable (e : Expression) : e.toTerm.toForm.Spellable := by
  have hword {w : String} (hne : w.toList ≠ []) (hall : w.toList.all isWordChar) :
      (Term.atom ⟨w⟩).toForm.Spellable := by
    have hw : IsWord w := ⟨hne, List.all_eq_true.mp hall⟩
    simpa [Term.toForm, Atom.toForm, hw.unmarked?, Form.Spellable, Form.words] using hw
  induction e with
  | zero => exact hword (by simp) rfl
  | succ e ih =>
      have hS : (Term.atom ⟨"S"⟩).toForm.Spellable := hword (by simp) rfl
      exact Form.spellable_group_iff.mpr (by simp [Term.toForms, hS, ih])
  | apply o e f he hf =>
      have ho : (Term.atom o.atom).toForm.Spellable := by
        cases o <;> exact hword (by simp) rfl
      exact Form.spellable_group_iff.mpr (by simp [Term.toForms, ho, he, hf])

/-- No name that may occur in an expression is bound. -/
structure Spared (b : Bindings) : Prop where
  zero : b.get? ⟨"Z"⟩ = none
  succ : b.get? ⟨"S"⟩ = none
  operation (o : Operation) : b.get? o.atom = none

theorem final {b : Bindings} (hb : Spared b) (e : Expression) : e.toTerm.Final b := by
  refine ⟨e.plain.collapsed, ?_⟩
  induction e with
  | zero => simp [toTerm, Term.substitute, hb.zero]
  | succ e ih => simp [toTerm, Term.substitute, Term.substituteAll, hb.succ, ih]
  | apply o e f he hf =>
      simp [toTerm, Term.substitute, Term.substituteAll, hb.operation, he, hf]

end Expression

open Expression

/-! ## The rules -/

/-- The pattern `Z` -/
def zeroPattern : Pattern := .lit ⟨"Z"⟩

/-- The pattern `[S 'm]` -/
def succPattern : Pattern := .seq [.lit ⟨"S"⟩, .var ⟨"m"⟩]

def zeroBindings (e : Expression) : Bindings := .single ⟨"n"⟩ e.toTerm

def succBindings (e f : Expression) : Bindings := (zeroBindings e).insert ⟨"m"⟩ f.toTerm

namespace Operation

/-- The pattern `[o 'n q]` -/
def pattern (o : Operation) (q : Pattern) : Pattern := .seq [.lit o.atom, .var ⟨"n"⟩, q]

/-- What is to stand in the place of `[o n Z]`. -/
def zeroBody : Operation → Term
  | add => .atom ⟨"n"⟩
  | mul => .atom ⟨"Z"⟩

/-- What is to stand in the place of `[o n [S m]]`. -/
def succBody : Operation → Term
  | add => .seq [.atom ⟨"S"⟩, .seq [.atom ⟨"add"⟩, .atom ⟨"n"⟩, .atom ⟨"m"⟩]]
  | mul => .seq [.atom ⟨"add"⟩, .seq [.atom ⟨"mul"⟩, .atom ⟨"n"⟩, .atom ⟨"m"⟩], .atom ⟨"n"⟩]

def zeroScope (π : Policy) (o : Operation) : Scope := .ofRule π (o.pattern zeroPattern) o.zeroBody

def succScope (π : Policy) (o : Operation) : Scope := .ofRule π (o.pattern succPattern) o.succBody

/-- The innermost declaration is the one for `[o n [S m]]`. -/
def declarations (o : Operation) : List Term.Declaration :=
  [⟨(o.pattern zeroPattern).toTerm, o.zeroBody⟩, ⟨(o.pattern succPattern).toTerm, o.succBody⟩]

/-- What `[o e Z]` is replaced by. -/
def atZero : Operation → Expression → Expression
  | add, e => e
  | mul, _ => zero

/-- What `[o e [S f]]` is replaced by. -/
def atSucc : Operation → Expression → Expression → Expression
  | add, e, f => succ (apply add e f)
  | mul, e, f => apply add (apply mul e f) e

theorem substitute_zeroBody (o : Operation) (e : Expression) :
    o.zeroBody.substitute (zeroBindings e) = (o.atZero e).toTerm := by
  cases o <;> simp [zeroBody, atZero, Term.substitute, zeroBindings, Bindings.single, toTerm]

theorem substitute_succBody (o : Operation) (e f : Expression) :
    o.succBody.substitute (succBindings e f) = (o.atSucc e f).toTerm := by
  cases o <;> simp [succBody, atSucc, Term.substitute, Term.substituteAll, succBindings,
    zeroBindings, Bindings.single, toTerm, atom]

theorem match?_zero (o : Operation) (e : Expression) :
    (o.pattern zeroPattern).match? (apply o e zero).toTerm = some (zeroBindings e) := by
  refine Pattern.match?_eq_some_iff.mpr ⟨fun v => ?_, ?_⟩
  · rw [zeroBindings, Bindings.isSome_get?_single]
    simp [pattern, zeroPattern, Pattern.vars, Pattern.varsAll]
  · have hn : (zeroBindings e).get? ⟨"n"⟩ = some e.toTerm := by
      simp [zeroBindings, Bindings.single]
    exact .seq (.cons (.lit _) (.cons (.var hn) (.cons (.lit _) .nil)))

theorem match?_succ (o : Operation) (e f : Expression) :
    (o.pattern succPattern).match? (apply o e (succ f)).toTerm = some (succBindings e f) := by
  refine Pattern.match?_eq_some_iff.mpr ⟨fun v => ?_, ?_⟩
  · rw [succBindings, Bindings.isSome_get?_insert, zeroBindings, Bindings.isSome_get?_single]
    simp [pattern, succPattern, Pattern.vars, Pattern.varsAll, or_comm]
  · have hn : (succBindings e f).get? ⟨"n"⟩ = some e.toTerm := by
      simp [succBindings, zeroBindings, Bindings.single]
    have hm : (succBindings e f).get? ⟨"m"⟩ = some f.toTerm := by
      simp [succBindings]
    exact .seq (.cons (.lit _) (.cons (.var hn)
      (.cons (.seq (.cons (.lit _) (.cons (.var hm) .nil))) .nil)))

end Operation

theorem spared_zeroBindings (e : Expression) : Spared (zeroBindings e) where
  zero := by simp [zeroBindings, Bindings.single]
  succ := by simp [zeroBindings, Bindings.single]
  operation o := by cases o <;> simp [zeroBindings, Bindings.single, Operation.atom]

theorem spared_succBindings (e f : Expression) : Spared (succBindings e f) where
  zero := by simp [succBindings, (spared_zeroBindings e).zero]
  succ := by simp [succBindings, (spared_zeroBindings e).succ]
  operation o := by
    rw [succBindings, Bindings.get?_insert, (spared_zeroBindings e).operation]
    cases o <;> simp [Operation.atom]

/-! ## What an expression comes to where one of the rules is in force -/

/-- The first expression comes to the second one in the scope. -/
def Expression.Becomes (π : Policy) (s : Scope) (e f : Expression) : Prop :=
  NormalForm π s e.toTerm f.toTerm

section

variable {o o' : Operation} {q : Pattern} {d e e' f f' g : Expression}

theorem becomes_zero : Becomes π (.ofRule π (o.pattern q) body) zero zero :=
  normalForm_ofRule_atom _

theorem becomes_succ (he : Becomes π (.ofRule π (o.pattern q) body) e f) :
    Becomes π (.ofRule π (o.pattern q) body) (succ e) (succ f) := by
  refine normalForm_ofRule_of_mismatch (.cons (normalForm_ofRule_atom _) (.cons he .nil))
    (by simp) (by simp) (Pattern.match?_eq_none fun b hb => ?_)
  cases hb with
  | seq h => simpa using h.length_eq

theorem becomes_succs (n : Nat) (he : Becomes π (.ofRule π (o.pattern q) body) e f) :
    Becomes π (.ofRule π (o.pattern q) body) (succs n e) (succs n f) := by
  induction n with
  | zero => exact he
  | succ n ih => exact becomes_succ ih

theorem becomes_numeral (n : Nat) :
    Becomes π (.ofRule π (o.pattern q) body) (numeral n) (numeral n) :=
  becomes_succs n becomes_zero

/-- The rule is for another operation or for another argument. -/
theorem becomes_apply (he : Becomes π (.ofRule π (o.pattern q) body) e e')
    (hf : Becomes π (.ofRule π (o.pattern q) body) f f')
    (hm : o' = o → ∀ b, ¬ q.Instance b f'.toTerm) :
    Becomes π (.ofRule π (o.pattern q) body) (apply o' e f) (apply o' e' f') := by
  refine normalForm_ofRule_of_mismatch (.cons (normalForm_ofRule_atom _) (.cons he (.cons hf .nil)))
    (by simp) (by simp) (Pattern.match?_eq_none fun b hb => ?_)
  cases hb with
  | seq h =>
      obtain _ | ⟨ho, _ | ⟨_, _ | ⟨hq, _⟩⟩⟩ := h
      exact hm (Operation.atom_injective (Term.atom.inj ho.eq_atom)) b hq

/-- The rule is for the operation and for the argument. -/
theorem becomes_of_match {b : Bindings} (he : Becomes π (.ofRule π (o.pattern q) body) e e')
    (hf : Becomes π (.ofRule π (o.pattern q) body) f f')
    (hm : (o.pattern q).match? (apply o e' f').toTerm = some b) (hb : Spared b)
    (hbody : body.substitute b = d.toTerm) (hg : Becomes π (.ofRule π (o.pattern q) body) d g) :
    Becomes π (.ofRule π (o.pattern q) body) (apply o e f) g := by
  have hts : List.Forall₂ (NormalForm π (.ofRule π (o.pattern q) body))
      [.atom o.atom, e.toTerm, f.toTerm] [.atom o.atom, e'.toTerm, f'.toTerm] :=
    .cons (normalForm_ofRule_atom _) (.cons he (.cons hf .nil))
  refine normalForm_ofRule_of_match hts (by simp) hm ?_ ?_ ?_
  · exact hbody ▸ d.final hb
  · exact hbody ▸ d.plain
  · exact hbody ▸ hg

theorem becomes_apply_zero (he : Becomes π (o.zeroScope π) e e')
    (hg : Becomes π (o.zeroScope π) (o.atZero e') g) :
    Becomes π (o.zeroScope π) (apply o e zero) g :=
  becomes_of_match he becomes_zero (o.match?_zero e') (spared_zeroBindings e')
    (o.substitute_zeroBody e') hg

theorem becomes_apply_succ (he : Becomes π (o.succScope π) e e')
    (hf : Becomes π (o.succScope π) f f') (hg : Becomes π (o.succScope π) (o.atSucc e' f') g) :
    Becomes π (o.succScope π) (apply o e (succ f)) g :=
  becomes_of_match he (becomes_succ hf) (o.match?_succ e' f') (spared_succBindings e' f')
    (o.substitute_succBody e' f') hg

end

/-! ## From one rule to the next -/

/-- `[add … [add [mul m Z] m] … m]`, where nothing is multiplied by anything but `Z`. -/
def unfolded (m : Nat) : Nat → Expression
  | 0 => apply .mul (numeral m) zero
  | n + 1 => apply .add (unfolded m n) (numeral m)

/-- `[add … [add Z m] … m]`, where nothing is multiplied. -/
def summed (m : Nat) : Nat → Expression
  | 0 => zero
  | n + 1 => apply .add (summed m n) (numeral m)

/-- `[S … [S [add e Z]]]` with `m` successors around each sum, where `e` is of this kind in turn and
nothing is added but `Z`. -/
def counted (m : Nat) : Nat → Expression
  | 0 => zero
  | n + 1 => succs m (apply .add (counted m n) zero)

theorem becomes_unfolded (m n : Nat) :
    Becomes π (Operation.mul.succScope π) (apply .mul (numeral m) (numeral n)) (unfolded m n) := by
  induction n with
  | zero => exact becomes_apply (becomes_numeral m) becomes_zero fun _ _ hb => nomatch hb
  | succ n ih =>
      refine becomes_apply_succ (becomes_numeral m) (becomes_numeral n) ?_
      exact becomes_apply ih (becomes_numeral m) nofun

theorem becomes_summed (m n : Nat) :
    Becomes π (Operation.mul.zeroScope π) (unfolded m n) (summed m n) := by
  induction n with
  | zero => exact becomes_apply_zero (becomes_numeral m) becomes_zero
  | succ n ih => exact becomes_apply ih (becomes_numeral m) nofun

theorem becomes_succs_add {e e' : Expression} (he : Becomes π (Operation.add.succScope π) e e')
    (n : Nat) :
    Becomes π (Operation.add.succScope π) (apply .add e (numeral n))
      (succs n (apply .add e' zero)) := by
  -- behind the first successor, the first summand has been rewritten already
  induction n generalizing e with
  | zero => exact becomes_apply he becomes_zero fun _ _ hb => nomatch hb
  | succ n ih => exact becomes_apply_succ he (becomes_numeral n) (becomes_succ (ih he.self))

theorem becomes_counted (m n : Nat) :
    Becomes π (Operation.add.succScope π) (summed m n) (counted m n) := by
  induction n with
  | zero => exact becomes_zero
  | succ n ih => exact becomes_succs_add ih m

theorem becomes_product (m n : Nat) :
    Becomes π (Operation.add.zeroScope π) (counted m n) (numeral (m * n)) := by
  induction n with
  | zero => exact becomes_zero
  | succ n ih =>
      have hadd : Becomes π (Operation.add.zeroScope π) (apply .add (counted m n) zero)
          (numeral (m * n)) :=
        becomes_apply_zero ih (becomes_numeral _)
      rw [Nat.mul_succ, ← succs_numeral]
      exact becomes_succs m hadd

/-! ## The program -/

/-- The declarations for multiplication are inside of those for addition. -/
def declarations : List Term.Declaration :=
  Operation.add.declarations ++ Operation.mul.declarations

theorem plain_of_mem_declarations :
    ∀ d ∈ declarations, d.pattern.Plain ∧ d.replacement.Plain := by
  simp [declarations, Operation.declarations, Operation.pattern, zeroPattern, succPattern,
    Operation.zeroBody, Operation.succBody, Pattern.toTerm, Pattern.toTerms, Term.plain_atom,
    Term.plain_seq]

theorem staged_declarations {o : Operation} {t : Term} {ds : List Term.Declaration}
    {e f g : Expression} (he : Staged π (NormalForm π) t ds e.toTerm)
    (hf : Becomes π (o.succScope π) e f) (hg : Becomes π (o.zeroScope π) f g) :
    Staged π (NormalForm π) t (o.declarations ++ ds) g.toTerm := by
  have hsucc : Pattern.ofTerm? (o.pattern succPattern).toTerm = some (o.pattern succPattern) := by
    cases o <;> rfl
  have hzero : Pattern.ofTerm? (o.pattern zeroPattern).toTerm = some (o.pattern zeroPattern) := by
    cases o <;> rfl
  exact .cons (.cons he hsucc hf) hzero hg

theorem normalForm_product (m n : Nat) : NormalForm π (.base π)
    (Term.declaring declarations (apply .mul (numeral m) (numeral n)).toTerm)
    (numeral (m * n)).toTerm := by
  have hmul : Staged π (NormalForm π) (apply .mul (numeral m) (numeral n)).toTerm
      Operation.mul.declarations (summed m n).toTerm :=
    staged_declarations .nil (becomes_unfolded m n) (becomes_summed m n)
  refine (normalForm_declaring_iff plain_of_mem_declarations (plain _)).mpr ?_
  exact staged_declarations hmul (becomes_counted m n) (becomes_product m n)

/-- The text in front of the subject. -/
def opening : String :=
  "( Multiplication of Peano numbers: 2 * 3 = 6. )\n\n" ++
  "[ [add 'n Z] -> n\n" ++
  "[ [add 'n [S 'm]] -> [S [add n m]]\n" ++
  "[ [mul 'n Z] -> Z\n" ++
  "[ [mul 'n [S 'm]] -> [add [mul n m] n]\n  "

/-- The text behind the subject. -/
def closing : String := "\n] ] ] ]\n"

def program (subject : Expression) : String :=
  opening ++ subject.toTerm.text ++ closing

theorem significant_opening :
    Token.significant opening = (Term.Declaration.context declarations).opening := by
  decide +kernel

theorem significant_closing :
    Token.significant closing = (Term.Declaration.context declarations).closing := by
  decide +kernel

theorem parse_program (o : Operation) (e f : Expression) : Form.parse (program (apply o e f)) =
    .ok ((Term.Declaration.context declarations).fill (apply o e f).toTerm.toForm) := by
  rw [program, ← Term.text_toForm]
  exact Form.parse_filled (spellable _) significant_opening significant_closing
    (Form.endsWord_group _ _) (Token.endsWord_blank rfl _)

/-- The program whose subject is the product of two numerals, which may be `Z`, comes to the numeral
of the product, whatever the engine remembers. -/
theorem multiplication_evaluated {engine : Engine} (h : engine.Filled π) (m n : Nat)
    (a : Except ReadError Term) :
    engine.Answers π (.evaluateText (program (apply .mul (numeral m) (numeral n)))) a ↔
      a = .ok (numeral (m * n)).toTerm := by
  have hresult : (Call.evaluateText (program (apply .mul (numeral m) (numeral n)))).Result π
      (.ok (numeral (m * n)).toTerm) := by
    refine result_iff_means.mpr ?_
    rw [Call.Means, parse_program]
    refine ⟨_, ?_, rfl⟩
    rw [Term.ofForm_fill_context plain_of_mem_declarations, Term.ofForm_toForm (plain _).collapsed]
    exact normalForm_product m n
  exact h.answers_iff_eq hresult

/-- Two times three is six. -/
theorem multiplication_evaluated_demo :
    let demo :=
      "( Multiplication of Peano numbers: 2 * 3 = 6. )\n\n" ++
      "[ [add 'n Z] -> n\n[ [add 'n [S 'm]] -> [S [add n m]]\n" ++
      "[ [mul 'n Z] -> Z\n[ [mul 'n [S 'm]] -> [add [mul n m] n]\n" ++
      "  [mul [S [S Z]] [S [S [S Z]]]]\n] ] ] ]\n"
    Engine.Filled .standard {} ∧
    Engine.Answers .standard {} (.evaluateText demo) (.ok (numeral 6).toTerm) ∧
    (numeral 6).toTerm.text = "[S [S [S [S [S [S Z]]]]]]" := by
  intro demo
  have h : Engine.Filled .standard {} := .fresh
  have hdemo : demo = program (apply .mul (numeral 2) (numeral 3)) := by decide +kernel
  rw [hdemo]
  exact ⟨h, (multiplication_evaluated h 2 3 _).mpr rfl, by decide +kernel⟩

end Peano

end ScopedRewriting
