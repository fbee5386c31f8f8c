import Glr.Tables.Basic

/-!
# Sets of symbols

A set of symbols has one slot for each symbol it can hold; a symbol without a slot is not in it.
-/

namespace Glr

/-- A set of symbols, as a row of slots indexed by symbol. -/
structure SymbolSet where
  slots : Array Bool
  deriving Repr, DecidableEq, Inhabited

namespace SymbolSet

/-- Whether a symbol is in the set. -/
def contains (set : SymbolSet) (s : Symbol) : Bool := set.slots.getD s false

/-- The set with `count` slots and nothing in it. -/
def empty (count : Nat) : SymbolSet := ⟨Array.replicate count false⟩

/-- Put a symbol into the set, if it has a slot. -/
def insert (set : SymbolSet) (s : Symbol) : SymbolSet := ⟨set.slots.setIfInBounds s true⟩

/-- The symbols of a list that have one of `count` slots. -/
def ofList (count : Nat) (symbols : List Symbol) : SymbolSet :=
  symbols.foldl insert (empty count)

/-- The symbols of either set that have a slot in the first. -/
def union (set other : SymbolSet) : SymbolSet :=
  ⟨set.slots.mapIdx fun i on => on || other.contains i⟩

/-- The symbols in ascending order. -/
def toList (set : SymbolSet) : List Symbol :=
  (List.range set.slots.size).filter set.contains

end SymbolSet

end Glr
