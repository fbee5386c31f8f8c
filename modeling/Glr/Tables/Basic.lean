/-!
# Parse tables

The tables of a compiled grammar: its symbols, its productions, a row of actions and gotos for each
parse state, the terminals each lex mode may match, and the pattern of each token.

Symbols are numbered densely.  Zero stands for the end of the text and one for an error; the
terminals follow, then the nonterminals.
-/

namespace Glr

/-- Number of a grammar symbol. -/
abbrev Symbol := Nat

/-- Number of a parse state. -/
abbrev StateId := Nat

/-- Number of a production. -/
abbrev ProductionId := Nat

namespace Symbol

/-- The end of the text. -/
def endOfText : Symbol := 0

/-- An error. -/
def error : Symbol := 1

/-- A symbol is written as a number sign and its number. -/
def render (s : Symbol) : String := "#" ++ toString s

end Symbol

structure SymbolInfo where
  name : String
  terminal : Bool
  /-- Whether a rule of the grammar gives the symbol its name. -/
  named : Bool
  /-- Whether nodes of the symbol show in the views of a tree. -/
  visible : Bool
  extra : Bool
  deriving Repr, DecidableEq, Inhabited

/-- How two operators of one level group. -/
inductive Assoc where
  | left
  | right
  | neither
  deriving Repr, DecidableEq, Inhabited

/-- What a parse needs of one production. -/
structure Production where
  lhs : Symbol
  length : Nat
  precedence : Int
  assoc : Assoc
  dynamicPrecedence : Int
  deriving Repr, DecidableEq, Inhabited

/-- A move of the parser. -/
inductive Action where
  | shift (target : StateId)
  | reduce (production : ProductionId)
  | accept
  deriving Repr, DecidableEq, Inhabited

/-- A move in writing. -/
def Action.render : Action → String
  | shift s => "Shift(" ++ toString s ++ ")"
  | reduce p => "Reduce(" ++ toString p ++ ")"
  | accept => "Accept"

/-- The moves of one state, each list in ascending order of symbols.  A cell with several actions
holds them with the preferred one first. -/
structure StateRow where
  actions : List (Symbol × List Action)
  gotos : List (Symbol × StateId)
  lexMode : Nat
  deriving Repr, DecidableEq, Inhabited

namespace StateRow

/-- The actions on a terminal. -/
def actionsOn (row : StateRow) (s : Symbol) : List Action := (row.actions.lookup s).getD []

/-- The state after a nonterminal. -/
def goto? (row : StateRow) (s : Symbol) : Option StateId := row.gotos.lookup s

end StateRow

/-- How a token is recognised. -/
inductive TokenPattern where
  | literal (text : String)
  | regex (source : String)
  deriving Repr, DecidableEq, Inhabited

namespace TokenPattern

/-- Whether the token is a fixed text. -/
def isLiteral : TokenPattern → Bool
  | literal _ => true
  | regex _ => false

/-- The fixed text or the pattern, as it was written. -/
def source : TokenPattern → String
  | literal t => t
  | regex s => s

end TokenPattern

/-- The pattern of one terminal. -/
structure TokenDef where
  symbol : Symbol
  pattern : TokenPattern
  deriving Repr, DecidableEq, Inhabited

/-- A compiled grammar. -/
structure Tables where
  name : String
  symbols : Array SymbolInfo
  productions : Array Production
  states : Array StateRow
  /-- The terminals each lex mode may match. -/
  lexModes : Array (List Symbol)
  tokens : List TokenDef
  extras : List Symbol
  wordToken : Option Symbol
  externalTokens : List Symbol
  startSymbol : Symbol
  deriving Repr, DecidableEq, Inhabited

namespace Tables

/-- Whether a symbol is one of the table's terminals. -/
def isTerminal (t : Tables) (s : Symbol) : Bool :=
  match t.symbols[s]? with
  | some info => info.terminal
  | none => false

end Tables

end Glr
