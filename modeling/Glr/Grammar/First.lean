import Glr.Grammar.Flat
import Glr.Grammar.SymbolBits

/-!
# What a symbol can begin with

A symbol is nullable if it derives the empty text, and its first set holds the terminals that a
text derived from it can begin with.  Both are least fixpoints over the productions.
-/

namespace Glr

/-- The nullable symbols of a grammar, and the first set of each symbol. -/
structure FirstSets where
  nullable : SymbolBits
  first : Array SymbolBits
  deriving Repr, DecidableEq, Inhabited

namespace FirstSets

/-- The terminals that a text derived from a symbol can begin with. -/
def ofSymbol (f : FirstSets) (s : Symbol) : SymbolBits := f.first.getD s SymbolBits.empty

/-- The terminals that can begin a text derived from symbols and followed by one of `tail`. -/
def ofList (f : FirstSets) (tail : SymbolBits) : List Symbol → SymbolBits
  | [] => tail
  | s :: ss =>
    if f.nullable.contains s then (f.ofSymbol s).union (ofList f tail ss) else f.ofSymbol s

/-- Add what one production says of its left side. -/
def addProduction (f : FirstSets) (p : FlatProduction) : FirstSets where
  nullable :=
    if p.rhs.all f.nullable.contains then f.nullable.insert p.lhs else f.nullable
  first := f.first.modify p.lhs fun set => set.union (f.ofList SymbolBits.empty p.rhs)

/-- Terminals begin with themselves; of the others nothing is known yet. -/
def start (g : FlatGrammar) : FirstSets where
  nullable := SymbolBits.empty
  first := g.symbols.mapIdx fun s info =>
    if info.terminal then SymbolBits.single s else SymbolBits.empty

/-- Go over all productions once. -/
def round (g : FlatGrammar) (f : FirstSets) : FirstSets := g.productions.foldl addProduction f

/-- The first sets of a grammar.  A round that changes something adds a symbol to one of the sets,
so there are at most as many as the sets have room for symbols. -/
def ofGrammar (g : FlatGrammar) : FirstSets :=
  let count := g.symbols.size
  saturate (round g) (count * (count + 1) + 1) (start g)

end FirstSets

end Glr
