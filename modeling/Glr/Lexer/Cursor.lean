import Glr.Text.Utf8

/-!
# Cursors over a text

A cursor is what a hand-written scanner sees of a text: the bytes ahead of its position, one
character at a time.  It records the furthest place looked at, so that the token it leads to is
known to depend on nothing behind that place.
-/

namespace Glr

/-- A place in a text, moving forward from where it started. -/
structure Cursor where
  text : Text
  start : Nat
  position : Nat
  /-- Where the token ends, if not at the position. -/
  marked : Option Nat
  /-- The furthest place looked at. -/
  furthest : Nat
  deriving Repr, DecidableEq

namespace Cursor

/-- A cursor at an offset. -/
def atOffset (text : Text) (offset : Nat) : Cursor := ⟨text, offset, offset, none, offset⟩

/-- Record that a place was looked at. -/
def touch (c : Cursor) (place : Nat) : Cursor := { c with furthest := max c.furthest place }

/-- The next byte, which stays ahead. -/
def lookahead (c : Cursor) : Option UInt8 × Cursor :=
  (c.text[c.position]?, c.touch c.position)

/-- The next character, which stays ahead; there is none at the end or where the bytes are no
character. -/
def lookaheadChar (c : Cursor) : Option Char × Cursor :=
  match c.text[c.position]? with
  | none => (none, c)
  | some byte =>
    let stop := min (c.position + Utf8.width byte) c.text.size
    (Utf8.firstChar? (c.text.extract c.position stop).toList, c.touch (stop - 1))

/-- Move over the next character. -/
def advance (c : Cursor) : Cursor :=
  match c.text[c.position]? with
  | none => c
  | some byte =>
    let position := min (c.position + Utf8.width byte) c.text.size
    { c with position }.touch (position - 1)

/-- End the token here, however far the cursor moves on. -/
def markEnd (c : Cursor) : Cursor := { c with marked := some c.position }

/-- Whether nothing is ahead. -/
def isAtEnd (c : Cursor) : Bool × Cursor :=
  (c.text.size ≤ c.position, c.touch c.position)

/-- Where the token ends. -/
def tokenEnd (c : Cursor) : Nat := c.marked.getD c.position

/-- One past the furthest place looked at. -/
def examined (c : Cursor) : Nat := c.furthest + 1

/-- The bytes ahead. -/
def remaining (c : Cursor) : Nat := c.text.size - c.position

/-- A cursor with a byte ahead has fewer bytes ahead once it has moved. -/
theorem remaining_advance_lt {c : Cursor} {byte : UInt8} (h : c.text[c.position]? = some byte) :
    (c.touch c.position).advance.remaining < c.remaining := by
  have hlt : c.position < c.text.size := by
    rcases Nat.lt_or_ge c.position c.text.size with h' | h'
    · exact h'
    · simp [h'] at h
  have := Utf8.width_pos byte
  simp only [remaining, advance, touch, h]
  omega

end Cursor

end Glr
