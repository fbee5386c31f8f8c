import Glr.Lexer.Matcher
import Glr.Lexer.Scanner
import Glr.Text.Quoted

/-!
# Languages

A language is a set of valid tables made ready for parsing: the token patterns are read, and the
sets of symbols that the lexer and the parser ask about are laid out.  `ofTables` and `ofBlob` are
the ways to load one; either gives a language that is fit for use or says what is wrong.
-/

namespace Glr

namespace LexMode

/-- The mode recorded on a token that was found among the recovery terminals. -/
def recovery : Nat := 65534

/-- The mode recorded on a token that was lexed for several stacks at once. -/
def union : Nat := 65535

end LexMode

structure Language where
  version : Nat
  tables : Tables
  matcher : Matcher
  /-- The terminals of each lex mode. -/
  validSets : Array SymbolSet
  /-- The terminals that are tried when no valid one matches: literals and named tokens. -/
  recoveryTerminals : SymbolSet
  extras : SymbolSet
  /-- The literals that the word token matches as well. -/
  keywords : SymbolSet
  externals : SymbolSet
  scanner : Option Scanner

namespace Language

/-- Whether a symbol is among the recovery terminals of tables. -/
def isRecoveryTerminal (t : Tables) (s : Symbol) : Bool :=
  match t.symbols[s]? with
  | some info =>
    2 ≤ s && info.terminal &&
      (info.named || t.tokens.any fun d => d.symbol == s && d.pattern.isLiteral)
  | none => false

/-- The literals that are also whole words. -/
def keywordsOf (t : Tables) (m : Matcher) : List Symbol :=
  match t.wordToken with
  | none => []
  | some word =>
    t.tokens.filterMap fun d =>
      match d.pattern with
      | .literal text => if m.matchesWhole (Text.ofString text) word then some d.symbol else none
      | .regex _ => none

/-- The name of a symbol in tables, or its number. -/
def nameIn (t : Tables) (s : Symbol) : String :=
  match t.symbols[s]? with
  | some info => info.name
  | none => s.render

/-- Make valid tables ready. -/
def prepare (version : Nat) (t : Tables) : Except LoadError Language := do
  let count := t.symbols.size
  let matcher ← Matcher.ofTokens t.tokens (nameIn t)
  return {
    version
    tables := t
    matcher
    validSets := t.lexModes.map (SymbolSet.ofList count)
    recoveryTerminals :=
      SymbolSet.ofList count ((List.range count).filter (isRecoveryTerminal t))
    extras := SymbolSet.ofList count t.extras
    keywords := SymbolSet.ofList count (keywordsOf t matcher)
    externals := SymbolSet.ofList count t.externalTokens
    scanner := none }

/-- Load tables that are at hand. -/
def ofTables (t : Tables) : Except LoadError Language :=
  match t.fault? with
  | some fault => .error (.corruptBlob (.tables fault))
  | none => prepare Blob.currentVersion t

theorem prepare_eq_ok {version : Nat} {t : Tables} {l : Language} :
    prepare version t = .ok l ↔ ∃ m, Matcher.ofTokens t.tokens (nameIn t) = .ok m ∧ l = {
      version
      tables := t
      matcher := m
      validSets := t.lexModes.map (SymbolSet.ofList t.symbols.size)
      recoveryTerminals := SymbolSet.ofList t.symbols.size
        ((List.range t.symbols.size).filter (isRecoveryTerminal t))
      extras := SymbolSet.ofList t.symbols.size t.extras
      keywords := SymbolSet.ofList t.symbols.size (keywordsOf t m)
      externals := SymbolSet.ofList t.symbols.size t.externalTokens
      scanner := none } := by
  rw [prepare]
  cases Matcher.ofTokens t.tokens (nameIn t) with
  | error e =>
    constructor
    · intro h
      cases h
    · rintro ⟨m, read, -⟩
      cases read
  | ok m =>
    constructor
    · intro h
      exact ⟨m, rfl, (Except.ok.inj h).symm⟩
    · rintro ⟨m', read, rfl⟩
      cases read
      rfl

theorem ofTables_eq_ok {t : Tables} {l : Language} :
    ofTables t = .ok l ↔ t.fault? = none ∧ prepare Blob.currentVersion t = .ok l := by
  rw [ofTables]
  split
  · next faulty => simp [faulty]
  · next sound => simp [sound]

def ofBlob (bytes : Text) : Except LoadError Language := do
  let (version, t) ← Blob.decode bytes
  prepare version t

def withScanner (l : Language) (scanner : Scanner) : Language := { l with scanner := some scanner }

/-- Languages are the same if their tables are. -/
def sameAs (l m : Language) : Bool := l.tables == m.tables

/-! ## Symbols -/

def name (l : Language) : String := l.tables.name

def symbolCount (l : Language) : Nat := l.tables.symbols.size

def stateCount (l : Language) : Nat := l.tables.states.size

def startSymbol (l : Language) : Symbol := l.tables.startSymbol

def wordToken (l : Language) : Option Symbol := l.tables.wordToken

def symbolInfo? (l : Language) (s : Symbol) : Option SymbolInfo := l.tables.symbols[s]?

/-- The name of a symbol, empty for one that does not exist. -/
def symbolName (l : Language) (s : Symbol) : String :=
  match l.symbolInfo? s with
  | some info => info.name
  | none => ""

/-- The first symbol of a name; a rule and a literal may share one, so the caller says which. -/
def symbolForName? (l : Language) (name : String) (named : Bool) : Option Symbol :=
  l.tables.symbols.findIdx? fun info => info.name == name && info.named == named

def isNamed (l : Language) (s : Symbol) : Bool :=
  s == Symbol.error || (l.symbolInfo? s).any (·.named)

def isVisible (l : Language) (s : Symbol) : Bool :=
  s == Symbol.error || (l.symbolInfo? s).any (·.visible)

def isTerminal (l : Language) (s : Symbol) : Bool := l.tables.isTerminal s

def isExtra (l : Language) (s : Symbol) : Bool := l.extras.contains s

def isKeyword (l : Language) (s : Symbol) : Bool := l.keywords.contains s

def isExternal (l : Language) (s : Symbol) : Bool := l.externals.contains s

/-! ## Moves -/

def production? (l : Language) (p : ProductionId) : Option Production := l.tables.productions[p]?

/-- Every terminal with an action in a state. -/
def stateActions (l : Language) (state : StateId) : List (Symbol × List Action) :=
  match l.tables.states[state]? with
  | some row => row.actions
  | none => []

/-- The actions of a state on a terminal, the preferred one first; none is an error in the
text. -/
def actions (l : Language) (state : StateId) (s : Symbol) : List Action :=
  match l.tables.states[state]? with
  | some row => row.actionsOn s
  | none => []

def hasActions (l : Language) (state : StateId) (s : Symbol) : Bool :=
  !(l.actions state s).isEmpty

def goto? (l : Language) (state : StateId) (s : Symbol) : Option StateId :=
  (l.tables.states[state]?).bind (·.goto? s)

/-! ## Lex modes -/

def lexMode (l : Language) (state : StateId) : Nat :=
  match l.tables.states[state]? with
  | some row => row.lexMode
  | none => LexMode.recovery

/-- The terminals of a lex mode; any mode that is not in the tables has the recovery terminals. -/
def validSet (l : Language) (mode : Nat) : SymbolSet :=
  l.validSets.getD mode l.recoveryTerminals

/-- A language in writing. -/
def render (l : Language) : String :=
  "Language \x7b name: " ++ Text.quoted l.name ++ ", version: " ++ toString l.version
    ++ ", symbols: " ++ toString l.symbolCount ++ ", states: " ++ toString l.stateCount
    ++ ", .. \x7d"

end Language

end Glr
