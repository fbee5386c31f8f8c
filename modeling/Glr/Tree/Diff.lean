import Glr.Text.Span
import Glr.Tree.Green

/-!
# Comparing trees

`changedRanges` compares an edited tree with the tree of the edited text and gives the ranges where
they differ, sorted and apart from each other.  `structurallyEqualIn` compares what two trees have
in a range.  A subtree that two trees share in one place is not looked into.
-/

namespace Glr

namespace Green

/-- Whether two nodes at two offsets look alike, have as many children and stand in one place. -/
def comparable (old : Green) (oldStart : Nat) (new : Green) (newStart : Nat) : Bool :=
  oldStart == newStart && looksLike old new && old.children.length == new.children.length

mutual

/-- The ranges where two trees at given offsets differ, in order of the walk. -/
def differences (oldStart newStart : Nat) : Green → Green → List Span
  | mk d cs, new =>
    if oldStart == newStart && isSame (mk d cs) new then []
    -- Where the shapes part, all of both trees counts as changed.
    else if !comparable (mk d cs) oldStart new newStart then
      [(Span.ofLength oldStart d.length).cover (Span.ofLength newStart new.length)]
    else differencesIn oldStart newStart cs new.children

/-- The ranges where trees side by side differ one by one. -/
def differencesIn (oldStart newStart : Nat) : List Green → List Green → List Span
  | old :: olds, new :: news =>
    differences oldStart newStart old new
      ++ differencesIn (oldStart + old.length) (newStart + new.length) olds news
  -- Trees are compared one by one only if there are as many.
  | _, _ => []

end

/-- Put a range behind ranges in order, merging it with the last if they touch. -/
def mergeInto (merged : List Span) (s : Span) : List Span :=
  match merged with
  | last :: before => if s.start ≤ last.stop then last.cover s :: before else s :: merged
  | [] => [s]

/-- Ranges are ordered by where they start, then by where they end. -/
def spanLe (s t : Span) : Bool := s.start < t.start || (s.start == t.start && s.stop ≤ t.stop)

/-- Sort ranges and merge those that touch. -/
def mergeSpans (spans : List Span) : List Span :=
  ((spans.mergeSort spanLe).foldl mergeInto []).reverse

/-- The ranges where a tree differs from an edited older one. -/
def changedRanges (old new : Green) : List Span := mergeSpans (differences 0 0 old new)

/-- A node as it is met in a walk over a range. -/
structure Visit where
  start : Nat
  length : Nat
  depth : Nat
  symbol : Symbol
  flags : NodeFlags
  deriving Repr, DecidableEq

mutual

/-- The nodes that overlap a range, each before its children, in front of a list. -/
def overlappingOnto (range : Span) (start depth : Nat) (after : List Visit) : Green → List Visit
  | mk d cs =>
    if (Span.ofLength start d.length).overlaps range then
      ⟨start, d.length, depth, d.symbol, d.flags.shape⟩ ::
        overlappingOntoIn range start (depth + 1) after cs
    else after

/-- The nodes of trees side by side that overlap a range, in front of a list. -/
def overlappingOntoIn (range : Span) (start depth : Nat) (after : List Visit) :
    List Green → List Visit
  | [] => after
  | g :: gs =>
    overlappingOnto range start depth (overlappingOntoIn range (start + g.length) depth after gs) g

end

/-- The nodes that overlap a range, each before its children. -/
def overlapping (g : Green) (range : Span) : List Visit := g.overlappingOnto range 0 0 []

/-- Whether two trees have the same nodes in a range: at the same places and depths, and looking
alike. -/
def structurallyEqualIn (g h : Green) (range : Span) : Bool :=
  isSame g h || g.overlapping range == h.overlapping range

end Green

end Glr
