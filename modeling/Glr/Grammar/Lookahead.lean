import Glr.Grammar.Automaton
import Glr.Grammar.First

/-!
# Lookaheads

The lookahead of an item in a state is the set of terminals that may follow once the item is read to
its end.  It flows along the automaton: moving the dot keeps it, and predicting a nonterminal gives
what can begin the rest of the item followed by the item's own lookahead.  All items predicted for
one nonterminal in one state share their lookahead.  The lookaheads are the least ones closed under
this flow, with the end of the text behind the start symbol.
-/

namespace Glr

/-- The lookaheads in one state. -/
structure StateLookaheads where
  /-- One set for each item of the kernel. -/
  kernel : Array SymbolBits
  /-- One set for each symbol, shared by the items predicted for it. -/
  predicted : Array SymbolBits
  deriving Repr, DecidableEq, Inhabited

namespace StateLookaheads

/-- The lookahead of an item in a state. -/
def ofItem (g : FlatGrammar) (state : LrState) (known : StateLookaheads) (item : Item) :
    SymbolBits :=
  match state.kernel.idxOf? item with
  | some i => known.kernel.getD i SymbolBits.empty
  | none =>
    match g.productions[item.production]? with
    | some p => known.predicted.getD p.lhs SymbolBits.empty
    | none => SymbolBits.empty

/-- Add to the lookahead of an item of the kernel. -/
def addKernel (state : LrState) (item : Item) (set : SymbolBits) (known : StateLookaheads) :
    StateLookaheads :=
  match state.kernel.idxOf? item with
  | some i => { known with kernel := known.kernel.modify i (·.union set) }
  | none => known

/-- Add to the lookahead of the items predicted for a symbol. -/
def addPredicted (s : Symbol) (set : SymbolBits) (known : StateLookaheads) : StateLookaheads :=
  { known with predicted := known.predicted.modify s (·.union set) }

end StateLookaheads

abbrev Lookaheads := Array StateLookaheads

namespace Lookaheads

def ofItem (g : FlatGrammar) (a : Automaton) (known : Lookaheads) (i : StateId) (item : Item) :
    SymbolBits :=
  match a.states[i]?, known[i]? with
  | some state, some here => here.ofItem g state item
  | _, _ => SymbolBits.empty

/-- Let the lookahead of one item flow on. -/
def flow (g : FlatGrammar) (f : FirstSets) (a : Automaton) (i : StateId) (state : LrState)
    (known : Lookaheads) (item : Item) : Lookaheads :=
  match item.rest g with
  | [] => known
  | s :: rest =>
    let own := ofItem g a known i item
    let known :=
      if g.isTerminal s then known
      else known.modify i (StateLookaheads.addPredicted s (f.ofList own rest))
    match state.moves.lookup s with
    | none => known
    | some target =>
      match a.states[target]? with
      | none => known
      | some next => known.modify target (StateLookaheads.addKernel next item.advance own)

def flowState (g : FlatGrammar) (f : FirstSets) (a : Automaton) (known : Lookaheads)
    (i : StateId) : Lookaheads :=
  match a.states[i]? with
  | some state => state.items.foldl (flow g f a i state) known
  | none => known

def round (g : FlatGrammar) (f : FirstSets) (a : Automaton) (known : Lookaheads) : Lookaheads :=
  (List.range a.states.size).foldl (flowState g f a) known

/-- Nothing is known but that the end of the text follows the start symbol. -/
def start (g : FlatGrammar) (a : Automaton) : Lookaheads :=
  a.states.mapIdx fun i state =>
    { kernel := Array.replicate state.kernel.length
        (if i = 0 then SymbolBits.single Symbol.endOfText else SymbolBits.empty)
      predicted := Array.replicate g.symbols.size SymbolBits.empty }

/-- How many symbols the lookaheads of an automaton have room for. -/
def room (g : FlatGrammar) (a : Automaton) : Nat :=
  (a.states.foldl (fun n state => n + (state.kernel.length + g.symbols.size)) 0) * g.symbols.size

/-- The lookaheads of an automaton.  A round that changes something adds a symbol to one of the
sets, so there are at most as many as there is room for symbols. -/
def ofAutomaton (g : FlatGrammar) (f : FirstSets) (a : Automaton) : Lookaheads :=
  saturate (round g f a) (room g a + 1) (start g a)

end Lookaheads

end Glr
