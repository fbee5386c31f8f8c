import Glr.Tables.Basic

/-!
# Small sets of symbols

Building tables joins sets of symbols over and over, so a set is kept as the bits of one number.
`saturate` repeats a step until it changes nothing.  A step that only ever adds to finitely many
finite sets must stop, and its least fixpoint is what every analysis of a grammar here computes.
-/

namespace Glr

/-- A set of symbols, as the bits of a number. -/
structure SymbolBits where
  bits : Nat
  deriving Repr, DecidableEq, Inhabited

namespace SymbolBits

def contains (set : SymbolBits) (s : Symbol) : Bool := set.bits.testBit s

def empty : SymbolBits := ⟨0⟩

def single (s : Symbol) : SymbolBits := ⟨1 <<< s⟩

def union (set other : SymbolBits) : SymbolBits := ⟨set.bits ||| other.bits⟩

def insert (set : SymbolBits) (s : Symbol) : SymbolBits := set.union (single s)

/-- The symbols below a bound, in ascending order. -/
def below (set : SymbolBits) (bound : Nat) : List Symbol :=
  (List.range bound).filter set.contains

def ofList (symbols : List Symbol) : SymbolBits := symbols.foldl insert empty

@[simp] theorem contains_empty (s : Symbol) : empty.contains s = false := by
  simp [contains, empty]

@[simp] theorem contains_union (a b : SymbolBits) (s : Symbol) :
    (a.union b).contains s = (a.contains s || b.contains s) := by
  simp [contains, union]

@[simp] theorem contains_single (t s : Symbol) : (single t).contains s = decide (t = s) := by
  simp [contains, single, Nat.one_shiftLeft, Nat.testBit_two_pow]

@[simp] theorem contains_insert (a : SymbolBits) (t s : Symbol) :
    (a.insert t).contains s = (a.contains s || decide (t = s)) := by
  simp [insert]

/-- Joining a set to one slot adds nothing to the others, and nothing that is not in the set. -/
theorem contains_of_modify {sets : Array SymbolBits} {set : SymbolBits} {i j : Nat} {s : Symbol}
    (h : ((sets.modify i (·.union set)).getD j empty).contains s = true) :
    (sets.getD j empty).contains s = true ∨ i = j ∧ set.contains s = true := by
  rw [Array.getD_eq_getD_getElem?, Array.getElem?_modify] at h
  rw [Array.getD_eq_getD_getElem?]
  split at h
  · next same =>
    subst same
    cases slot : sets[i]? with
    | none =>
      rw [slot] at h
      exact Or.inl h
    | some old =>
      rw [slot, Option.map_some, Option.getD_some, contains_union, Bool.or_eq_true] at h
      exact h.imp_right fun added => ⟨rfl, added⟩
  · exact Or.inl h

end SymbolBits

/-- Repeat a step until it changes nothing, at most `fuel` times. -/
def saturate {α : Type} [DecidableEq α] (step : α → α) : Nat → α → α
  | 0, a => a
  | fuel + 1, a =>
    let b := step a
    if b = a then a else saturate step fuel b

end Glr
