import ScopedRewriting.Session.Query
import ScopedRewriting.Scope.Chain

/-!
# Sessions

A session is an engine together with named chains of rules. Its commands are carried out one after
the other; a command that fails leaves what it did before it failed.
-/

namespace ScopedRewriting

inductive ChainName where
  | base
  | freshBase
  | empty
  | stored (name : String)
deriving Inhabited

inductive RuleSketch where
  | empty
  | declaration
  | subst (name : String) (term : Sketch)
  | function (pattern body : Sketch) (closure : ChainName)
deriving Inhabited

inductive Command where
  | extend (chain : ChainName) (rule : RuleSketch) (store : String)
  | extendAll (chain other : ChainName) (store : String)
  | list (chain : ChainName)
  | inspect (chain : ChainName)
  | compare (a b : ChainName)
  | compareRules (a b : RuleSketch)
  | evaluateText (text : String)
  | evaluate (term : Sketch)
  | normalize (chain : ChainName) (term : Sketch)
  | reduceOnce (chain : ChainName) (term : Sketch)
  | normalizeElements (chain : ChainName) (term : Sketch)
  | apply (rule : RuleSketch) (term : Sketch) (chain : ChainName)
  | recall (chain : ChainName) (term : Sketch)
  | memorize (chain : ChainName) (term normal : Sketch)
  | cacheSize
  | clearCache
  | namesSize
  | intern (name : String)
  | internMarked (name : String)
  | findAtom (name : String)
  /-- Compares two atoms, the second one also as an atom of another table. -/
  | compareAtoms (a b : String)
  | describe (term : Sketch)
  | compareTerms (a b : Sketch)
  | inspectTerm (term : Sketch)
  | pattern (term : Sketch)

structure ChainComparison where
  equal : Bool
  same : Bool
  conflict : Bool
  converseConflict : Bool

/-- An atom in a table. Each table holds an atom once. -/
structure Interned where
  table : Nat
  atom : Atom
deriving DecidableEq

/-- How an atom compares with another one of its table, and with the same one of another table. -/
structure AtomComparison where
  equal : Bool
  same : Bool
  equalAcross : Bool
  sameAcross : Bool
  others : Nat

inductive Answer where
  | scope (s : Scope)
  | listing (s : Scope)
  | inspection (s : Scope)
  | chains (c : ChainComparison)
  | truth (b : Bool)
  | term (t : Term)
  | term? (t : Option Term)
  | applied (t : Option Term) (events : List Event)
  | size (n : Nat)
  | sizeIsZero (n : Nat)
  | atom (a : Atom) (names : Nat)
  | atom? (a : Option Atom)
  | atoms (c : AtomComparison)
  | description (t : Term)
  | termInspection (t : Term)
  | pattern (p : Pattern)

structure Session where
  engine : Engine := {}
  others : Names := .empty
  chains : List (String × Chain) := []
  /-- The mark of the next link; that of the base chain is zero. -/
  nextMark : Nat := 1
deriving Inhabited

abbrev SessionM := ExceptT QueryError (StateM Session)

namespace Session

variable {α : Type}

def query (q : Query α) : SessionM α :=
  fun s =>
    let (result, engine) := q s.engine
    (result, { s with engine := engine })

def build (b : Build (Part (Except BuildError α)) α) : SessionM α := query (Query.build b)

def job (p : Part α α) : SessionM α := query (Query.job p)

def chain (π : Policy) : ChainName → SessionM Chain
  | .base => return .base π 0
  | .freshBase => do
      let mark := (← get).nextMark
      modify fun s => { s with nextMark := mark + 1 }
      return .base π mark
  | .empty => return .empty
  | .stored name => do
      match (← get).chains.lookup name with
      | some c => return c
      | none => throw (.unknownScope name)

def rule (π : Policy) : RuleSketch → SessionM Rule
  | .empty => return .empty
  | .declaration => return .declaration
  | .subst name term => do
      job (ScopedRewriting.intern ⟨name⟩)
      return .subst ⟨name⟩ (← build term.build)
  | .function pattern body closure => do
      let p ← build do Pattern.build (← pattern.build)
      let t ← build body.build
      return .function p t (← chain π closure).scope

/-- Stores the chain with some rules added. -/
def storeExtended (π : Policy) (c : Chain) (rules : List Rule) (name : String) :
    SessionM Answer := do
  let (c, mark) := c.extendMany π (← get).nextMark rules
  modify fun s => { s with chains := (name, c) :: s.chains, nextMark := mark }
  return .scope c.scope

def namesSize : SessionM Nat := return (← get).engine.names.size

def perform (π : Policy) (fuel : Nat) : Command → SessionM Answer
  | .extend c r name => do
      let c ← chain π c
      let r ← rule π r
      storeExtended π c [r] name
  | .extendAll c d name => do
      let c ← chain π c
      let d ← chain π d
      storeExtended π c d.scope.rules.reverse name
  | .list c => return .listing (← chain π c).scope
  | .inspect c => return .inspection (← chain π c).scope
  | .compare a b => do
      let a ← chain π a
      let b ← chain π b
      return .chains ⟨a.beq b, a.same b, a.conflictsWith b, b.conflictsWith a⟩
  | .compareRules a b => do
      let a ← rule π a
      let b ← rule π b
      return .truth (a == b)
  | .evaluateText text => do
      match ← job (ScopedRewriting.evaluateText π fuel text) with
      | .ok t => return .term t
      | .error e => throw (.build (.read e))
  | .evaluate term => do
      let t ← build term.build
      return .term (← job (ScopedRewriting.evaluate π fuel t))
  | .normalize c term => do
      let c ← chain π c
      let t ← build term.build
      return .term (← job (ScopedRewriting.normalize π fuel c.scope t))
  | .reduceOnce c term => do
      let c ← chain π c
      let t ← build term.build
      let once := ScopedRewriting.reduceOnce π (ScopedRewriting.normalize π fuel) c.scope t
      return .term (← job once)
  | .normalizeElements c term => do
      let c ← chain π c
      let t ← build term.build
      let norm := ScopedRewriting.normalize π fuel c.scope
      return .term (← job (ScopedRewriting.normalizeElements norm t))
  | .apply r term c => do
      let r ← rule π r
      let t ← build term.build
      let c ← chain π c
      let (result, events) ←
        query (Query.logged (r.apply π (ScopedRewriting.normalize π fuel) c.scope t))
      return .applied result events
  | .recall c term => do
      let c ← chain π c
      let t ← build term.build
      return .term? (← job (request (.recall c.scope t)))
  | .memorize c term normal => do
      let c ← chain π c
      let t ← build term.build
      let n ← build normal.build
      job (request (.memorize c.scope t n))
      return .size (← get).engine.cache.size
  | .cacheSize => return .sizeIsZero (← get).engine.cache.size
  | .clearCache => do
      modify fun s => { s with engine := { s.engine with cache := .empty } }
      return .size (← get).engine.cache.size
  | .namesSize => return .sizeIsZero (← namesSize)
  | .intern name => do
      job (ScopedRewriting.intern ⟨name⟩)
      return .atom ⟨name⟩ (← namesSize)
  | .internMarked name => do
      let a := Atom.marked ⟨name⟩
      job (ScopedRewriting.intern a)
      return .atom a (← namesSize)
  | .findAtom name => do
      return .atom? (if (← get).engine.names.contains ⟨name⟩ then some ⟨name⟩ else none)
  | .compareAtoms a b => do
      job (ScopedRewriting.internAll [⟨a⟩, ⟨b⟩])
      modify fun s => { s with others := s.others.insert ⟨b⟩ }
      let a : Interned := ⟨0, ⟨a⟩⟩
      let o : Interned := ⟨1, ⟨b⟩⟩
      let b : Interned := ⟨0, ⟨b⟩⟩
      return .atoms ⟨a.atom == b.atom, a == b, a.atom == o.atom, a == o, (← get).others.size⟩
  | .describe term => return .description (← build term.build)
  | .compareTerms a b => do
      let t ← build a.build
      let u ← build b.build
      return .truth (t == u)
  | .inspectTerm term => return .termInspection (← build term.build)
  | .pattern term => return .pattern (← build do Pattern.build (← term.build))

def performAll (π : Policy) (fuel : Nat) (s : Session) :
    List Command → List (Except QueryError Answer) × Session
  | [] => ([], s)
  | c :: cs =>
      let (answer, s) := perform π fuel c s
      let (answers, s) := performAll π fuel s cs
      (answer :: answers, s)

end Session

end ScopedRewriting
