/-!
# Sets of characters

A set of characters is a list of ranges of code points, each below the next and not adjacent to it,
so that equal sets have equal ranges.  The surrogates are no characters: the character after U+D7FF
is U+E000, and a range that spans the gap between them holds nothing in it.
-/

namespace Glr

/-- A set of characters, as ranges of code points with both ends included. -/
structure CharSet where
  ranges : List (Nat × Nat)
  deriving Repr, DecidableEq, Inhabited

namespace CharSet

/-- The last code point. -/
def lastCode : Nat := 0x10FFFF

/-- No character. -/
def none : CharSet := ⟨[]⟩

/-- One character. -/
def single (c : Char) : CharSet := ⟨[(c.toNat, c.toNat)]⟩

/-- The characters from one to another. -/
def range (first last : Char) : CharSet := ⟨[(first.toNat, last.toNat)]⟩

/-- Put a range among others; it takes in those it overlaps and those it is adjacent to. -/
def insertRange (first last : Nat) : List (Nat × Nat) → List (Nat × Nat)
  | [] => [(first, last)]
  | (f, l) :: rest =>
    if last + 1 < f then (first, last) :: (f, l) :: rest
    else if l + 1 < first then (f, l) :: insertRange first last rest
    else insertRange (min first f) (max last l) rest

/-- The characters of either set. -/
def union (s t : CharSet) : CharSet :=
  ⟨t.ranges.foldl (fun ranges (first, last) => insertRange first last ranges) s.ranges⟩

/-- The characters of any of the sets. -/
def unionOf (sets : List CharSet) : CharSet := sets.foldl union none

/-- Whether a code point is in the set. -/
def contains (s : CharSet) (code : Nat) : Bool :=
  s.ranges.any fun (first, last) => first ≤ code && code ≤ last

/-- Whether some code point from `low` to `high` is in the set. -/
def meets (s : CharSet) (low high : Nat) : Bool :=
  s.ranges.any fun (first, last) => max first low ≤ min last high

/-- Whether the set holds nothing. -/
def isVoid (s : CharSet) : Bool := s.ranges.isEmpty

/-- The only character of the set, if it holds just one. -/
def only? (s : CharSet) : Option Char :=
  match s.ranges with
  | [(first, last)] => if first = last then some (Char.ofNat first) else Option.none
  | _ => Option.none

/-- The code of the next character. -/
def codeAfter (code : Nat) : Nat := if code = 0xD7FF then 0xE000 else code + 1

/-- The code of the character before. -/
def codeBefore (code : Nat) : Nat := if code = 0xE000 then 0xD7FF else code - 1

/-- The ranges between ranges, and above the last of them; the first one starts at `low`, and what
is between two ranges is written with its lesser end first. -/
def gapsFrom (low : Nat) : List (Nat × Nat) → List (Nat × Nat)
  | [] => if low ≤ lastCode then [(low, lastCode)] else []
  | (first, last) :: rest =>
    (min low (codeBefore first), max low (codeBefore first)) :: gapsFrom (codeAfter last) rest

/-- Every character outside the set.  Between a range that ends with U+D7FF and one that starts with
U+E000 there is no character, and these two ends are taken in. -/
def complement (s : CharSet) : CharSet :=
  match s.ranges with
  | (0, last) :: rest => ⟨gapsFrom (codeAfter last) rest⟩
  | ranges => ⟨gapsFrom 0 ranges⟩

/-- Blanks: every character of Unicode's White_Space. -/
def space : CharSet :=
  ⟨[(0x09, 0x0D), (0x20, 0x20), (0x85, 0x85), (0xA0, 0xA0), (0x1680, 0x1680), (0x2000, 0x200A),
    (0x2028, 0x2029), (0x202F, 0x202F), (0x205F, 0x205F), (0x3000, 0x3000)]⟩

/-- Every character but the newline. -/
def notNewline : CharSet := (single '\n').complement

end CharSet

end Glr
