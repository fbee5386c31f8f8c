import Glr.Text.Checked

/-!
# Texts, offsets and lengths

A text is an array of bytes, whether or not they are valid UTF-8, and an offset counts bytes from
its start.  Offsets are natural numbers; the word that stores one has 32 bits, which `add` and `sub`
check.
-/

namespace Glr

/-- Source text, as bytes. -/
abbrev Text := Array UInt8

namespace Text

/-- The bytes of a string in UTF-8. -/
def ofString (s : String) : Text := s.toUTF8.data

end Text

namespace Size

/-- The largest offset or length that a word holds. -/
def largest : Nat := 0xFFFFFFFF

def add (a b : Nat) : Checked Nat := ⟨a + b, a + b ≤ largest⟩

/-- The difference of two lengths, which must not be negative. -/
def sub (a b : Nat) : Checked Nat := ⟨a - b, b ≤ a⟩

/-- The length of a text; one too long for the word counts as the longest. -/
def ofText (text : Text) : Nat := min text.size largest

@[simp] theorem value_add (a b : Nat) : (add a b).value = a + b := rfl

@[simp] theorem value_sub (a b : Nat) : (sub a b).value = a - b := rfl

end Size

end Glr
