import Glr.Text.Point

/-!
# Edits

An edit replaces a range of a text.  It is described by the range, by where the replacement ends,
and by the same three places as rows and columns.  `replace` describes the change of one range and
`ofTexts` the shortest change from one text to another; `mapOffset` and `mapPoint` say where a place
of the old text lies in the new one.
-/

namespace Glr

/-- One replaced range, in bytes and in rows and columns. -/
structure TextEdit where
  startByte : Nat
  oldEndByte : Nat
  newEndByte : Nat
  startPoint : Point
  oldEndPoint : Point
  newEndPoint : Point
  deriving Repr, DecidableEq, Inhabited

namespace TextEdit

/-- Replace `old[start, stop)` by `inserted`; ends outside the text move to its ends. -/
def replace (old : Text) (start stop : Nat) (inserted : Text) : TextEdit :=
  let start := min start old.size
  let stop := min (max stop start) old.size
  let startPoint := Point.extentOf (old.extract 0 start)
  { startByte := start
    oldEndByte := stop
    newEndByte := start + inserted.size
    startPoint := startPoint
    oldEndPoint := startPoint.advance (Point.extentOf (old.extract start stop))
    newEndPoint := startPoint.advance (Point.extentOf inserted) }

/-- The text after `replace`. -/
def splice (old : Text) (start stop : Nat) (inserted : Text) : Text :=
  let start := min start old.size
  let stop := min (max stop start) old.size
  old.extract 0 start ++ inserted ++ old.extract stop old.size

/-- How many bytes two lists share at the front. -/
def commonLength : List UInt8 → List UInt8 → Nat
  | a :: as, b :: bs => if a = b then commonLength as bs + 1 else 0
  | _, _ => 0

/-- Replace what differs: the part between the longest shared head and, in what that leaves, the
longest shared tail. -/
def ofTexts (old new : Text) : TextEdit :=
  let head := commonLength old.toList new.toList
  let tail := commonLength (old.toList.drop head).reverse (new.toList.drop head).reverse
  replace old head (old.size - tail) (new.extract head (new.size - tail))

/-- Whether nothing is replaced by nothing. -/
def isEmpty (e : TextEdit) : Bool :=
  e.startByte == e.oldEndByte && e.startByte == e.newEndByte

/-- Where an offset of the old text lies in the new one; the replaced range collapses onto the end
of its replacement. -/
def mapOffset (e : TextEdit) (offset : Nat) : Checked Nat :=
  if offset ≤ e.startByte then pure offset
  else if offset ≥ e.oldEndByte then Size.add (offset - e.oldEndByte) e.newEndByte
  else pure e.newEndByte

/-- Where a position of the old text lies in the new one. -/
def mapPoint (e : TextEdit) (p : Point) : Checked Point :=
  if p ≤ e.startPoint then pure p
  else if e.oldEndPoint ≤ p then e.newEndPoint.advanceChecked (e.oldEndPoint.extentTo p)
  else pure e.newEndPoint

/-- Whether an edit can have influenced the text from `start` to `stop`, decided by looking up to
`lookahead` bytes past `stop`. -/
def damages (e : TextEdit) (start stop lookahead : Nat) : Bool :=
  start ≤ e.oldEndByte && stop + lookahead ≥ e.startByte

end TextEdit

end Glr
