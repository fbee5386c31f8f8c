import Glr.Grammar.Conflict
import Glr.Grammar.Lookahead
import Glr.Grammar.Lowering

/-!
# From a grammar to parse tables

`Grammar.build` flattens a grammar, builds its automaton with lookaheads, and settles what every
state does on every terminal.  The terminals that a state has actions on, the end of the text apart,
are its lex mode; states with the same terminals share one.
-/

namespace Glr

/-- What a state offers before conflicts are settled. -/
structure Offer where
  /-- The productions read to their end, with their lookaheads. -/
  complete : List (ProductionId × SymbolBits)
  /-- The terminals right of a dot, with the productions of their items. -/
  shifting : List (Symbol × ProductionId)
  accepts : Bool
  deriving Repr, Inhabited

namespace Offer

def empty : Offer := ⟨[], [], false⟩

def addItem (g : FlatGrammar) (offer : Offer) (item : Item) (lookahead : SymbolBits) : Offer :=
  match item.next? g with
  | some s =>
    if g.isTerminal s then { offer with shifting := (s, item.production) :: offer.shifting }
    else offer
  | none =>
    -- Nothing is left to reduce once the start symbol is read.
    if item.production = g.augmented then { offer with accepts := true }
    else { offer with complete := (item.production, lookahead) :: offer.complete }

/-- What a state with known lookaheads offers. -/
def ofState (g : FlatGrammar) (a : Automaton) (known : Lookaheads) (i : StateId)
    (state : LrState) : Offer :=
  state.items.foldl (fun offer item => offer.addItem g item (known.ofItem g a i item)) empty

/-- The terminals that something can be done on, in ascending order. -/
def terminals (g : FlatGrammar) (offer : Offer) : List Symbol :=
  let shifted := SymbolBits.ofList (offer.shifting.map (·.1))
  let ended := if offer.accepts then shifted.insert Symbol.endOfText else shifted
  (offer.complete.foldl (fun set c => set.union c.2) ended).below g.symbols.size

/-- What can be done on one terminal. -/
def cell (state : LrState) (offer : Offer) (s : Symbol) : Cell where
  shift := state.moves.lookup s
  shifters := offer.shifting.filterMap fun m => if m.1 = s then some m.2 else none
  reduces :=
    (offer.complete.filterMap fun c => if c.2.contains s then some c.1 else none).mergeSort
      (· ≤ ·)
  accepts := offer.accepts && s == Symbol.endOfText

end Offer

namespace FlatGrammar

/-- The actions of a state in ascending order of terminals. -/
def actionsOf (g : FlatGrammar) (strict : Bool) (i : StateId) (state : LrState) (offer : Offer) :
    List Symbol → Except GrammarError (List (Symbol × List Action))
  | [] => .ok []
  | s :: ss => do
    let actions ← (offer.cell state s).resolve g strict i s
    let others ← actionsOf g strict i state offer ss
    return if actions.isEmpty then others else (s, actions) :: others

/-- The lex mode of a list of terminals, among those so far or as a new one. -/
def lexModeOf (modes : Array (List Symbol)) (valid : List Symbol) : Nat × Array (List Symbol) :=
  match modes.idxOf? valid with
  | some mode => (mode, modes)
  | none => (modes.size, modes.push valid)

/-- The rows of states from a given number on, and the lex modes. -/
def rowsFrom (g : FlatGrammar) (strict : Bool) (a : Automaton) (known : Lookaheads)
    (rows : Array StateRow) (modes : Array (List Symbol)) :
    List LrState → Except GrammarError (Array StateRow × Array (List Symbol))
  | [] => .ok (rows, modes)
  | state :: states => do
    let i := rows.size
    let offer := Offer.ofState g a known i state
    let actions ← actionsOf g strict i state offer (offer.terminals g)
    -- The end of the text is no token, and no pattern is tried for it.
    let (lexMode, modes) :=
      lexModeOf modes ((actions.map (·.1)).filter (· != Symbol.endOfText))
    let gotos := state.moves.filter fun m => !g.isTerminal m.1
    rowsFrom g strict a known (rows.push ⟨actions, gotos, lexMode⟩) modes states

def tables (g : FlatGrammar) (strict : Bool) : Except GrammarError Tables := do
  let a ← Automaton.ofGrammar g
  let known := Lookaheads.ofAutomaton g (FirstSets.ofGrammar g) a
  let (states, lexModes) ← rowsFrom g strict a known #[] #[] a.states.toList
  return {
    name := g.name
    symbols := g.symbols
    productions := g.productions.map fun p =>
      ⟨p.lhs, p.rhs.length, p.precedence, p.assoc, p.dynamicPrecedence⟩
    states
    lexModes
    tokens := g.tokens
    extras := g.extras
    wordToken := g.word
    externalTokens := g.externals
    startSymbol := g.start }

end FlatGrammar

def Grammar.build (g : Grammar) : Except GrammarError Tables := do
  let flat ← g.lower
  flat.tables g.strict

end Glr
