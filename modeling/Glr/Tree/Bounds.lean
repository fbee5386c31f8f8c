import Glr.Tree.Basic

/-!
# Walks within bounds

Offsets and positions are worked out on the way through a tree, child after child, and a tree made
by hand or edited at will may hold nodes whose places no word can hold.  Every walk is defined on
such a tree too; the predicates here tell whether all places it works out are in range.

A walk works out where the children of a node start and end when it opens the node, the end of the
last child included.  `rowFits` says that these places are in range for trees side by side and for
what is opened below them; walks differ in what they open.
-/

namespace Glr

namespace Green

mutual

/-- Whether a tree at a place ends in range, and what is opened in it does. -/
def endFits (opens : NodeData → Bool) (start : Nat) (position : Point) : Green → Bool
  | mk d cs =>
    start + d.length ≤ Size.largest && (position.advance d.extent).inRange
      && (!opens d || rowFits opens start position cs)

/-- Whether all trees side by side end in range, and what is opened in them does. -/
def rowFits (opens : NodeData → Bool) (start : Nat) (position : Point) : List Green → Bool
  | [] => true
  | g :: gs =>
    endFits opens start position g
      && rowFits opens (start + g.length) (position.advance g.extent) gs

end

mutual

/-- Whether `differences` meets only nodes that start and end in range. -/
def differencesFit (oldStart newStart : Nat) : Green → Green → Bool
  | mk d cs, new =>
    if oldStart == newStart && isSame (mk d cs) new then true
    else if !comparable (mk d cs) oldStart new newStart then
      oldStart + d.length ≤ Size.largest && newStart + new.length ≤ Size.largest
    else differencesFitIn oldStart newStart cs new.children

/-- Whether `differencesIn` meets only nodes that start and end in range. -/
def differencesFitIn (oldStart newStart : Nat) : List Green → List Green → Bool
  | old :: olds, new :: news =>
    oldStart + old.length ≤ Size.largest && newStart + new.length ≤ Size.largest
      && differencesFit oldStart newStart old new
      && differencesFitIn (oldStart + old.length) (newStart + new.length) olds news
  | _, _ => true

end

/-- `changedRanges`, with the check that all it meets is in range. -/
def changedRangesChecked (old new : Green) : Checked (List Span) :=
  ⟨changedRanges old new, differencesFit 0 0 old new⟩

mutual

/-- Whether the nodes met in looking for those that overlap a range end in range. -/
def overlappingFits (range : Span) (start : Nat) : Green → Bool
  | mk d cs =>
    start + d.length ≤ Size.largest
      && (!(Span.ofLength start d.length).overlaps range || overlappingFitsIn range start cs)

/-- Whether the nodes of trees side by side that are met end in range. -/
def overlappingFitsIn (range : Span) (start : Nat) : List Green → Bool
  | [] => true
  | g :: gs => overlappingFits range start g && overlappingFitsIn range (start + g.length) gs

end

/-- `structurallyEqualIn`, with the check that all it meets is in range. -/
def structurallyEqualInChecked (g h : Green) (range : Span) : Checked Bool :=
  ⟨structurallyEqualIn g h range,
    isSame g h || (overlappingFits range 0 g && overlappingFits range 0 h)⟩

end Green

namespace Node

/-- Whether what is below a node is in range, as far as it is opened. -/
def openFits (n : Node) (opens : NodeData → Bool) : Bool :=
  Green.rowFits opens n.place.offset n.place.position n.green.children

/-- Whether all that is below a node is in range. -/
def allFits (n : Node) : Bool := n.openFits fun _ => true

/-- Whether the children of a node can be listed: hidden nodes are opened in their place. -/
def childrenFit (l : Language) (n : Node) : Bool := n.openFits fun d => !l.isVisible d.symbol

/-- Whether the siblings of a node can be listed. -/
def siblingsFit (l : Language) (n : Node) : Bool := n.parent?.all (·.childrenFit l)

/-- Whether the expression form of a node can be written: the named nodes are opened, and hidden
ones in their place, but no missing node that shows. -/
def sexpFits (l : Language) (n : Node) : Bool :=
  n.green.isMissing ||
    n.openFits fun d => !l.isVisible d.symbol || (l.isNamed d.symbol && !d.flags.missing)

/-- Whether the search for the smallest node over a range can list the children of every node on
its way, the one it ends at included. -/
def descentFits (l : Language) (n : Node) (range : Span) : Bool :=
  match n.descendantForRange? l range with
  | none => true
  | some m =>
    ((m :: m.ancestors).take (m.above.length - n.above.length + 1)).all (·.childrenFit l)

end Node

namespace Tree

def allFits (t : Tree) : Bool := t.rootNode.allFits

end Tree

end Glr
