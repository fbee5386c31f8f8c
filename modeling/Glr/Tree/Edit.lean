import Glr.Text.Edit
import Glr.Tree.Green

/-!
# Editing a tree

`Green.edit` brings a tree into step with an edited text.  A node is damaged if the edit touches its
text or the bytes behind it that had a say in building it; a damaged leaf is resized, a damaged
inner node is rebuilt over its edited children, and everything else is kept as it is.

The boundaries of leaves move as the edit says.  There is one choice: text that is added at the very
end of the document belongs to the first leaf that ends there, and the leaves of no width after it
move to the new end.
-/

namespace Glr

/-- An edit of a document that has a given end. -/
structure DocumentEdit where
  edit : TextEdit
  stop : Nat
  stopPoint : Point

namespace DocumentEdit

/-- Where the document ends after the edit. -/
def newStop (d : DocumentEdit) : Checked (Nat × Point) := do
  let sum ← Size.add d.stop d.edit.newEndByte
  let point ← d.edit.newEndPoint.advanceChecked (d.edit.oldEndPoint.extentTo d.stopPoint)
  return (sum - d.edit.oldEndByte, point)

/-- Where a place lies after the edit. -/
def mapPlace (d : DocumentEdit) (offset : Nat) (point : Point) : Checked (Nat × Point) := do
  let offset ← d.edit.mapOffset offset
  let point ← d.edit.mapPoint point
  return (offset, point)

/-- Where a leaf starts after the edit; `appended` tells whether an earlier leaf has taken the text
added at the end. -/
def leafStart (d : DocumentEdit) (appended : Bool) (offset : Nat) (point : Point) :
    Checked (Nat × Point) :=
  if appended && offset == d.stop then d.newStop else d.mapPlace offset point

/-- Where a leaf ends after the edit. -/
def leafStop (d : DocumentEdit) (offset : Nat) (point : Point) : Checked (Nat × Point) :=
  if offset == d.stop then d.newStop else d.mapPlace offset point

end DocumentEdit

namespace Green

/-- A damaged leaf after the edit. -/
def editLeaf (d : DocumentEdit) (appended : Bool) (start : Nat) (position : Point) (g : Green) :
    Checked Green := do
  let (newStart, newPosition) ← d.leafStart appended start position
  let stop ← Size.add start g.length
  let stopPosition ← position.advanceChecked g.extent
  let (newStop, newStopPosition) ← d.leafStop stop stopPosition
  return g.resized (newStop - newStart) (newPosition.extentTo newStopPosition)
    NodeFlags.onlyDamaged

mutual

/-- A node that starts at a given place, after the edit, and whether the text added at the end is
taken. -/
def editAt (d : DocumentEdit) (appended : Bool) (start : Nat) (position : Point) :
    Green → Checked (Green × Bool)
  | mk data cs => do
    let stop ← Size.add start data.length
    if !d.edit.damages start stop data.lookahead then return (mk data cs, appended)
    else if cs.isEmpty then
      -- The first leaf that ends with the document takes what is added there.
      let leaf ← editLeaf d appended start position (mk data cs)
      return (leaf, appended || stop == d.stop)
    else
      let (children, appended) ← editChildren d appended start position cs
      let node ← (mk data cs).withChildren children NodeFlags.onlyDamaged
      return (node, appended)

/-- Nodes side by side from a given place, after the edit. -/
def editChildren (d : DocumentEdit) (appended : Bool) (start : Nat) (position : Point) :
    List Green → Checked (List Green × Bool)
  | [] => return ([], appended)
  | g :: gs => do
    let stop ← Size.add start g.length
    let stopPosition ← position.advanceChecked g.extent
    let (g, appended) ← editAt d appended start position g
    let (gs, appended) ← editChildren d appended stop stopPosition gs
    return (g :: gs, appended)

end

def edit (g : Green) (e : TextEdit) : Checked Green := do
  let (g, _) ← editAt ⟨e, g.length, g.extent⟩ false 0 Point.zero g
  return g

end Green

end Glr
