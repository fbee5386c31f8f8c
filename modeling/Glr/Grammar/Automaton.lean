import Glr.Grammar.Error
import Glr.Grammar.Flat
import Glr.Grammar.SymbolBits

/-!
# The automaton of a grammar

An item is a production with a dot in it: what is left of the dot has been read.  A state is known
by its kernel, the sorted list of items that a move leads to; its other items are those predicted
from the nonterminals right of a dot.  States are numbered in the order in which they are reached,
and the moves of a state are followed in the order of their symbols.

The production after the last one of the grammar derives the start symbol from nothing else; the
first state holds its item.
-/

namespace Glr

namespace FlatGrammar

/-- The number of the production of the start symbol alone. -/
def augmented (g : FlatGrammar) : ProductionId := g.productions.size

/-- The right side of a production. -/
def rhs (g : FlatGrammar) (p : ProductionId) : List Symbol :=
  match g.productions[p]? with
  | some production => production.rhs
  | none => [g.start]

end FlatGrammar

/-- A production with a dot in it. -/
structure Item where
  production : ProductionId
  dot : Nat
  deriving Repr, DecidableEq, Inhabited

namespace Item

/-- Items are ordered by production, then by dot. -/
def le (a b : Item) : Bool :=
  a.production < b.production || (a.production == b.production && a.dot ≤ b.dot)

/-- What is right of the dot. -/
def rest (g : FlatGrammar) (item : Item) : List Symbol := (g.rhs item.production).drop item.dot

/-- The symbol right of the dot. -/
def next? (g : FlatGrammar) (item : Item) : Option Symbol := (item.rest g).head?

def advance (item : Item) : Item := { item with dot := item.dot + 1 }

/-- The item before anything is read. -/
def start (p : ProductionId) : Item := ⟨p, 0⟩

end Item

structure LrState where
  kernel : List Item
  /-- The kernel and the predicted items. -/
  items : List Item
  /-- Where each symbol leads, in ascending order of symbols. -/
  moves : List (Symbol × StateId)
  deriving Repr, DecidableEq, Inhabited

structure Automaton where
  states : Array LrState
  deriving Repr, DecidableEq, Inhabited

namespace Automaton

/-- States are numbered below this bound. -/
def maxStates : Nat := 65535

/-- Add the nonterminal right of the dot of an item. -/
def predictFrom (g : FlatGrammar) (set : SymbolBits) (item : Item) : SymbolBits :=
  match item.next? g with
  | some s => if g.isTerminal s then set else set.insert s
  | none => set

/-- Add the nonterminals that begin productions of those in the set. -/
def predictRound (g : FlatGrammar) (set : SymbolBits) : SymbolBits :=
  (List.range g.productions.size).foldl (fun set p =>
    match g.productions[p]? with
    | some production =>
      if set.contains production.lhs then predictFrom g set (Item.start p) else set
    | none => set) set

/-- The nonterminals that a kernel predicts. -/
def predicted (g : FlatGrammar) (kernel : List Item) : SymbolBits :=
  -- Every round but the last adds a symbol.
  saturate (predictRound g) (g.symbols.size + 1)
    (kernel.foldl (predictFrom g) SymbolBits.empty)

/-- The items of a kernel: itself, and every production of a predicted nonterminal. -/
def closure (g : FlatGrammar) (kernel : List Item) : List Item :=
  let set := predicted g kernel
  kernel ++ (List.range g.productions.size).filterMap fun p =>
    match g.productions[p]? with
    | some production => if set.contains production.lhs then some (Item.start p) else none
    | none => none

/-- The symbols right of a dot. -/
def nexts (g : FlatGrammar) (items : List Item) : List Symbol :=
  (SymbolBits.ofList (items.filterMap (·.next? g))).below g.symbols.size

/-- The kernel that a symbol leads to. -/
def core (g : FlatGrammar) (items : List Item) (s : Symbol) : List Item :=
  ((items.filter fun item => item.next? g == some s).map Item.advance).mergeSort Item.le

/-- The states reached by symbols, with the kernels so far followed by the new ones. -/
def follow (g : FlatGrammar) (items : List Item) (kernels : Array (List Item)) :
    List Symbol → Except GrammarError (List (Symbol × StateId) × Array (List Item))
  | [] => .ok ([], kernels)
  | s :: ss => do
    let kernel := core g items s
    let (target, kernels) ←
      match kernels.idxOf? kernel with
      | some target => pure (target, kernels)
      | none =>
        if kernels.size < maxStates then pure (kernels.size, kernels.push kernel)
        else throw (.tooLarge .states)
    let (moves, kernels) ← follow g items kernels ss
    return ((s, target) :: moves, kernels)

/-- Complete the states of the kernels behind those that are `done`, while there are any. -/
def explore (g : FlatGrammar) (kernels : Array (List Item)) (done : Array LrState) :
    Nat → Except GrammarError (Array LrState)
  | 0 => .ok done
  | fuel + 1 =>
    match kernels[done.size]? with
    | none => .ok done
    | some kernel => do
      let items := closure g kernel
      let (moves, kernels) ← follow g items kernels (nexts g items)
      explore g kernels (done.push ⟨kernel, items, moves⟩) fuel

def ofGrammar (g : FlatGrammar) : Except GrammarError Automaton := do
  -- There are no more kernels than this to complete, or `follow` refuses.
  let states ← explore g #[[Item.start g.augmented]] #[] maxStates
  return ⟨states⟩

end Automaton

end Glr
