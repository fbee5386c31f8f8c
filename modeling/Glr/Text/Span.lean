import Glr.Text.Size

/-!
# Byte ranges

A span is the half-open range `[start, stop)` of offsets.  Nothing keeps `start` below `stop`: a
span may run backwards, and only its length then has no value.
-/

namespace Glr

/-- A half-open range of byte offsets. -/
structure Span where
  start : Nat
  stop : Nat
  deriving Repr, DecidableEq, Inhabited

namespace Span

/-- The range of `length` bytes from `start`. -/
def ofLength (start length : Nat) : Span := ⟨start, start + length⟩

/-- `ofLength`, with the check that the end is an offset. -/
def ofLengthChecked (start length : Nat) : Checked Span := do
  let stop ← Size.add start length
  return ⟨start, stop⟩

def emptyAt (offset : Nat) : Span := ⟨offset, offset⟩

/-- The number of bytes, for a range that does not run backwards. -/
def length (s : Span) : Checked Nat := Size.sub s.stop s.start

/-- Whether the range holds no byte because it ends where it starts. -/
def isEmpty (s : Span) : Bool := s.start == s.stop

def contains (s : Span) (offset : Nat) : Bool := s.start ≤ offset && offset < s.stop

/-- Whether the second range starts and ends within the first. -/
def covers (s t : Span) : Bool := s.start ≤ t.start && t.stop ≤ s.stop

/-- Whether the ranges share a byte; an empty range shares the places it touches. -/
def overlaps (s t : Span) : Bool :=
  if s.isEmpty || t.isEmpty then s.start ≤ t.stop && t.start ≤ s.stop
  else s.start < t.stop && t.start < s.stop

/-- The bytes in both ranges, if there is one. -/
def intersect? (s t : Span) : Option Span :=
  let start := max s.start t.start
  let stop := min s.stop t.stop
  if start < stop then some ⟨start, stop⟩ else none

def cover (s t : Span) : Span := ⟨min s.start t.start, max s.stop t.stop⟩

/-- A range is written as its two ends around two dots. -/
def render (s : Span) : String := toString s.start ++ ".." ++ toString s.stop

/-- The long form names both ends. -/
def renderLong (s : Span) : String :=
  "TextRange \x7b start: TextSize(" ++ toString s.start ++ "), end: TextSize(" ++ toString s.stop
    ++ ") \x7d"

end Span

end Glr
