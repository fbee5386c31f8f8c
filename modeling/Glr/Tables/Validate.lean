import Glr.Tables.Basic

/-!
# Tables that hold together

Tables may come from anywhere, so before use every number in them is checked: states, productions,
symbols and lex modes exist, terminals stand where terminals belong, and rows are sorted.
`Tables.fault?` reports the first thing wrong.
-/

namespace Glr

/-- What is wrong with tables. -/
inductive TableFault where
  | reservedSymbolsMissing
  | noStates
  | tooLarge
  | startNotNonterminal (start : Symbol)
  | productionSide (production : Nat)
  | lexModeMissing (state : Nat)
  | rowsUnsorted (state : Nat)
  | actionOnNonterminal (state : Nat)
  | shiftTargetMissing (state target : Nat)
  | productionMissing (state production : Nat)
  | gotoInvalid (state : Nat)
  | lexModeSymbolMissing
  | tokenNotTerminal (symbol : Symbol)
  | roleNotTerminal
  deriving Repr, DecidableEq

/-- The fault in words. -/
def TableFault.message : TableFault → String
  | reservedSymbolsMissing => "symbol table lacks the end and ERROR entries"
  | noStates => "no parse states"
  | tooLarge => "table dimensions exceed the id space"
  | startNotNonterminal s => "start symbol " ++ Symbol.render s ++ " is not a nonterminal"
  | productionSide p => "production " ++ toString p ++ " has an invalid left-hand side"
  | lexModeMissing s => "state " ++ toString s ++ " refers to a missing lex mode"
  | rowsUnsorted s => "state " ++ toString s ++ " rows are not sorted"
  | actionOnNonterminal s => "state " ++ toString s ++ " has an action on a non-terminal"
  | shiftTargetMissing s t => "state " ++ toString s ++ " shifts to missing state " ++ toString t
  | productionMissing s p =>
    "state " ++ toString s ++ " reduces by missing production " ++ toString p
  | gotoInvalid s => "state " ++ toString s ++ " has an invalid goto"
  | lexModeSymbolMissing => "lex mode refers to a missing symbol"
  | tokenNotTerminal s => "token definition for " ++ Symbol.render s ++ " is not a terminal"
  | roleNotTerminal => "extras, external or word token refer to non-terminals"

/-- Symbols and states are numbered below this bound. -/
def idLimit : Nat := 65535

/-- Whether each number is below the next. -/
def strictlyAscending : List Nat → Bool
  | a :: b :: rest => a < b && strictlyAscending (b :: rest)
  | _ => true

namespace Tables

/-- Whether a symbol is in the table. -/
def hasSymbol (t : Tables) (s : Symbol) : Bool := s < t.symbols.size

/-- Whether a symbol is in the table and no terminal. -/
def isNonterminal (t : Tables) (s : Symbol) : Bool := t.hasSymbol s && !t.isTerminal s

/-- What is wrong with one action of a state. -/
def actionFault? (t : Tables) (state : Nat) : Action → Option TableFault
  | .shift target =>
    if target < t.states.size then none else some (.shiftTargetMissing state target)
  | .reduce production =>
    if production < t.productions.size then none else some (.productionMissing state production)
  | .accept => none

/-- What is wrong with the cell of one symbol. -/
def cellFault? (t : Tables) (state : Nat) (cell : Symbol × List Action) : Option TableFault :=
  if t.isTerminal cell.1 then cell.2.findSome? (t.actionFault? state)
  else some (.actionOnNonterminal state)

/-- What is wrong with one row. -/
def rowFault? (t : Tables) (row : StateRow) (state : Nat) : Option TableFault :=
  if t.lexModes.size ≤ row.lexMode then some (.lexModeMissing state)
  else if !(strictlyAscending (row.actions.map (·.1)) && strictlyAscending (row.gotos.map (·.1)))
  then some (.rowsUnsorted state)
  else
    (row.actions.findSome? (t.cellFault? state)).or <|
      if row.gotos.all fun (s, target) => t.hasSymbol s && target < t.states.size then none
      else some (.gotoInvalid state)

/-- What is wrong with the tables, if anything. -/
def fault? (t : Tables) : Option TableFault :=
  if t.symbols.size < 2 then some .reservedSymbolsMissing
  else if t.states.isEmpty then some .noStates
  else if t.symbols.size > idLimit || t.states.size > idLimit then some .tooLarge
  else if !t.isNonterminal t.startSymbol then some (.startNotNonterminal t.startSymbol)
  else
    (t.productions.toList.zipIdx.findSome? fun (p, i) =>
      if t.isNonterminal p.lhs then none else some (.productionSide i)).or <|
    (t.states.toList.zipIdx.findSome? fun (row, i) => t.rowFault? row i).or <|
    if !t.lexModes.all fun mode => mode.all t.hasSymbol then some .lexModeSymbolMissing
    else
      (t.tokens.findSome? fun d =>
        if t.isTerminal d.symbol then none else some (.tokenNotTerminal d.symbol)).or <|
      if t.extras.all t.isTerminal && t.externalTokens.all t.isTerminal
          && t.wordToken.all t.isTerminal
      then none else some .roleNotTerminal

/-- Whether the tables hold together. -/
def isValid (t : Tables) : Bool := t.fault?.isNone

end Tables

end Glr
