import Glr.Text.Size

/-!
# Rows and columns

A point is a row and a byte column, both from zero.  It stands for a position, and equally for an
extent: the rows and columns that a piece of text spans.  Moving over an extent replaces the column
if the extent holds a newline and adds to it otherwise, so the extents of two adjacent pieces
combine by `advance` into the extent of the whole.
-/

namespace Glr

/-- A row and a column in bytes. -/
structure Point where
  row : Nat
  column : Nat
  deriving Repr, DecidableEq, Inhabited

namespace Point

/-- The start of a text, and the extent of the empty text. -/
def zero : Point := ⟨0, 0⟩

/-- Whether both parts are below the bound of their word. -/
def inRange (p : Point) : Bool := p.row ≤ Size.largest && p.column ≤ Size.largest

/-- The position reached from `p` over an extent. -/
def advance (p extent : Point) : Point :=
  if extent.row > 0 then ⟨p.row + extent.row, extent.column⟩
  else ⟨p.row, p.column + extent.column⟩

/-- `advance`, with the check that the result is in range. -/
def advanceChecked (p extent : Point) : Checked Point :=
  ⟨p.advance extent, (p.advance extent).inRange⟩

@[simp] theorem value_advanceChecked (p e : Point) : (p.advanceChecked e).value = p.advance e := rfl

/-- The extent from `p` to a later position; nothing is left of `p` on its own row. -/
def extentTo (p later : Point) : Point :=
  if later.row > p.row then ⟨later.row - p.row, later.column⟩
  else ⟨0, later.column - p.column⟩

/-- The position after one more byte. -/
def step (p : Point) (byte : UInt8) : Point :=
  if byte = 10 then ⟨p.row + 1, 0⟩ else ⟨p.row, p.column + 1⟩

/-- The extent of a text: its newlines, and the bytes after the last of them. -/
def extentOf (text : Text) : Point := text.foldl step zero

/-- Positions are ordered by row, then by column. -/
protected def compare (p q : Point) : Ordering :=
  (compare p.row q.row).then (compare p.column q.column)

instance : Ord Point := ⟨Point.compare⟩

instance : LE Point := ⟨fun p q => p.compare q ≠ .gt⟩

instance (p q : Point) : Decidable (p ≤ q) :=
  inferInstanceAs (Decidable (p.compare q ≠ .gt))

/-- A point is written as row, colon, column. -/
def render (p : Point) : String := toString p.row ++ ":" ++ toString p.column

end Point

end Glr
