import Glr.Text.Size

/-!
# UTF-8

A character is one to four bytes: a leading byte, then continuation bytes.  `Lead` is a character
read in part: how many bytes are owed, the range the next of them has to lie in, and the bits so
far.  The range of the next byte is what keeps out overlong forms, surrogates and code points past
the last plane, so the characters that can complete a `Lead` form an interval, `least` to
`greatest`.

`decode?` reads a whole text and refuses it at the first byte that fits no character.
`decodeLossy` reads any text: each longest run of bytes that starts a character without completing
it becomes one replacement character.  `width` is cruder.  It reads the length off the leading byte
alone, and a byte that leads nothing has width one.
-/

namespace Glr.Utf8

/-- The bytes that a leading byte announces, itself included. -/
def width (lead : UInt8) : Nat :=
  if lead < 0x80 then 1
  else if lead < 0xC0 then 1
  else if lead < 0xE0 then 2
  else if lead < 0xF0 then 3
  else if lead < 0xF8 then 4
  else 1

theorem width_pos (lead : UInt8) : 0 < width lead := by
  fun_cases width lead <;> decide

/-- A character read in part. -/
structure Lead where
  /-- Continuation bytes still to come. -/
  owed : Nat
  /-- Least value of the next one. -/
  low : Nat
  /-- Greatest value of the next one. -/
  high : Nat
  /-- The bits read so far. -/
  bits : Nat
  deriving Repr, DecidableEq, Inhabited

namespace Lead

/-- The character begun by a byte, if one can begin there. -/
def ofByte? (byte : UInt8) : Option Lead :=
  let b := byte.toNat
  if b < 0x80 then some ⟨0, 0x80, 0xBF, b⟩
  else if b < 0xC2 then none
  else if b < 0xE0 then some ⟨1, 0x80, 0xBF, b - 0xC0⟩
  else if b = 0xE0 then some ⟨2, 0xA0, 0xBF, 0⟩
  else if b = 0xED then some ⟨2, 0x80, 0x9F, 0xD⟩
  else if b < 0xF0 then some ⟨2, 0x80, 0xBF, b - 0xE0⟩
  else if b = 0xF0 then some ⟨3, 0x90, 0xBF, 0⟩
  else if b < 0xF4 then some ⟨3, 0x80, 0xBF, b - 0xF0⟩
  else if b = 0xF4 then some ⟨3, 0x80, 0x8F, 4⟩
  else none

/-- The character after one more byte, if that byte can continue it. -/
def step? (l : Lead) (byte : UInt8) : Option Lead :=
  let b := byte.toNat
  if l.owed = 0 then none
  else if l.low ≤ b && b ≤ l.high then
    some ⟨l.owed - 1, 0x80, 0xBF, l.bits * 64 + (b - 0x80)⟩
  else none

/-- The least code point that completes the character. -/
def least (l : Lead) : Nat :=
  if l.owed = 0 then l.bits
  else (l.bits * 64 + (l.low - 0x80)) <<< (6 * (l.owed - 1))

/-- The greatest code point that completes the character. -/
def greatest (l : Lead) : Nat :=
  if l.owed = 0 then l.bits
  else ((l.bits * 64 + (l.high - 0x80) + 1) <<< (6 * (l.owed - 1))) - 1

end Lead

/-- How reading one character ends: at a character, or at bytes that are none. -/
inductive Piece where
  | char (c : Char) (length : Nat)
  | broken (length : Nat)
  deriving Repr, DecidableEq

def Piece.length : Piece → Nat
  | .char _ n => n
  | .broken n => n

/-- Read on from a character of which `taken` bytes are read. -/
def pieceFrom (l : Lead) (taken : Nat) : List UInt8 → Piece
  | [] => if l.owed = 0 then .char (Char.ofNat l.bits) taken else .broken taken
  | b :: rest =>
    if l.owed = 0 then .char (Char.ofNat l.bits) taken
    else match l.step? b with
      | some l => pieceFrom l (taken + 1) rest
      | none => .broken taken

/-- Read one character of a text that starts with `byte`. -/
def piece (byte : UInt8) (rest : List UInt8) : Piece :=
  match Lead.ofByte? byte with
  | some l => pieceFrom l 1 rest
  | none => .broken 1

/-- The characters of a text, with `none` for each run of bytes that is no character. -/
def pieces : List UInt8 → List (Option Char)
  | [] => []
  | b :: rest =>
    match piece b rest with
    | .char c n => some c :: pieces (rest.drop (n - 1))
    | .broken n => none :: pieces (rest.drop (n - 1))
termination_by bytes => bytes.length
decreasing_by all_goals simp only [List.length_drop, List.length_cons]; omega

/-- The string a text encodes, if it is valid. -/
def decode? (text : Text) : Option String :=
  (pieces text.toList).mapM id |>.map String.ofList

/-- The string of a text, with U+FFFD for what is not valid. -/
def decodeLossy (text : Text) : String :=
  String.ofList ((pieces text.toList).map fun c => c.getD '\uFFFD')

/-- The first character of a text, if the bytes there are one. -/
def firstChar? (bytes : List UInt8) : Option Char :=
  match bytes with
  | [] => none
  | b :: rest =>
    match piece b rest with
    | .char c _ => some c
    | .broken _ => none

end Glr.Utf8
