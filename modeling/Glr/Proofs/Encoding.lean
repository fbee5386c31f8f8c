import Glr.Text.Utf8

/-!
# Strings and their bytes

A string is kept as the UTF-8 of its characters, and `Utf8.decode?` reads any text byte by byte
through a `Lead`.  The two were written apart, the one by lengths of code points and the other by
ranges of bytes.  Here they meet: what a string is kept as is read back as that string, so nothing
of a name or a pattern is lost on its way through bytes.

The four lengths of a character are told apart by its code point.  For each the bytes are walked
through `Lead.step?`; the bits collected on the way are the code point again.
-/

namespace Glr.Utf8

/-- The bytes of a string are those of its characters in turn. -/
theorem toList_ofString (s : String) :
    (Text.ofString s).toList = s.toList.flatMap String.utf8EncodeChar := by
  have h : s.toUTF8 = s.toList.utf8Encode := by
    rw [String.toUTF8_eq_toByteArray, ← String.toByteArray_ofList, String.ofList_toList]
  rw [Text.ofString, h, List.utf8Encode, List.data_toByteArray]

theorem toList_ofString_append (s t : String) :
    (Text.ofString (s ++ t)).toList = (Text.ofString s).toList ++ (Text.ofString t).toList := by
  simp [toList_ofString]

theorem toList_ofString_push (s : String) (c : Char) :
    (Text.ofString (s.push c)).toList = (Text.ofString s).toList ++ String.utf8EncodeChar c := by
  simp [toList_ofString]

/-! ## One character -/

theorem pieceFrom_of_owed_eq_zero {l : Lead} (h : l.owed = 0) (taken : Nat) (bs : List UInt8) :
    pieceFrom l taken bs = .char (Char.ofNat l.bits) taken := by
  cases bs <;> simp [pieceFrom, h]

theorem pieceFrom_of_step {l l' : Lead} {b : UInt8} (h : l.step? b = some l') (taken : Nat)
    (bs : List UInt8) : pieceFrom l taken (b :: bs) = pieceFrom l' (taken + 1) bs := by
  have owed : l.owed ≠ 0 := by
    intro h0
    simp [Lead.step?, h0] at h
  simp [pieceFrom, owed, h]

theorem toNat_byte {n : Nat} (h : n < 256) : (UInt8.ofNat n).toNat = n :=
  UInt8.toNat_ofNat_of_lt' h

/-- A continuation byte adds its six bits. -/
theorem step?_tail {owed low high bits n : Nat} (h : low ≤ n % 64 + 128)
    (h' : n % 64 + 128 ≤ high) :
    (⟨owed + 1, low, high, bits⟩ : Lead).step? (UInt8.ofNat (n % 64 + 128))
      = some ⟨owed, 0x80, 0xBF, bits * 64 + n % 64⟩ := by
  have value : (UInt8.ofNat (n % 64 + 128)).toNat = n % 64 + 128 := toNat_byte (by omega)
  simp only [Lead.step?, value]
  rw [if_neg (by omega), if_pos (by simp [h, h']), Nat.add_sub_cancel, Nat.add_sub_cancel]

/-- The first byte of a character in two bytes. -/
theorem ofByte?_two {n : Nat} (h : 0x80 ≤ n) (h' : n ≤ 0x7FF) :
    Lead.ofByte? (UInt8.ofNat (n / 64 % 32 + 192)) = some ⟨1, 0x80, 0xBF, n / 64⟩ := by
  have value : (UInt8.ofNat (n / 64 % 32 + 192)).toNat = n / 64 + 192 := by
    rw [toNat_byte (by omega)]; omega
  simp only [Lead.ofByte?, value]
  rw [if_neg (by omega), if_neg (by omega), if_pos (by omega), Nat.add_sub_cancel]

/-- The first byte of a character in three bytes, and the range it leaves for the second: no
overlong form and no surrogate. -/
theorem ofByte?_three {n : Nat} (h : 0x800 ≤ n) (h' : n ≤ 0xFFFF)
    (valid : n < 0xD800 ∨ 0xDFFF < n) :
    ∃ low high, Lead.ofByte? (UInt8.ofNat (n / 4096 % 16 + 224)) = some ⟨2, low, high, n / 4096⟩ ∧
      low ≤ n / 64 % 64 + 128 ∧ n / 64 % 64 + 128 ≤ high := by
  have value : (UInt8.ofNat (n / 4096 % 16 + 224)).toNat = n / 4096 + 224 := by
    rw [toNat_byte (by omega)]; omega
  simp only [Lead.ofByte?, value]
  rw [if_neg (by omega), if_neg (by omega), if_neg (by omega)]
  split
  · have : n / 4096 = 0 := by omega
    exact ⟨0xA0, 0xBF, by rw [this], by omega, by omega⟩
  · split
    · have : n / 4096 = 0xD := by omega
      exact ⟨0x80, 0x9F, by rw [this], by omega, by omega⟩
    · rw [if_pos (by omega), Nat.add_sub_cancel]
      exact ⟨0x80, 0xBF, rfl, by omega, by omega⟩

/-- The first byte of a character in four bytes, and the range it leaves for the second: no
overlong form and nothing past the last plane. -/
theorem ofByte?_four {n : Nat} (h : 0x10000 ≤ n) (h' : n < 0x110000) :
    ∃ low high,
      Lead.ofByte? (UInt8.ofNat (n / 262144 % 8 + 240)) = some ⟨3, low, high, n / 262144⟩ ∧
      low ≤ n / 4096 % 64 + 128 ∧ n / 4096 % 64 + 128 ≤ high := by
  have value : (UInt8.ofNat (n / 262144 % 8 + 240)).toNat = n / 262144 + 240 := by
    rw [toNat_byte (by omega)]; omega
  simp only [Lead.ofByte?, value]
  rw [if_neg (by omega), if_neg (by omega), if_neg (by omega), if_neg (by omega), if_neg (by omega),
    if_neg (by omega)]
  split
  · have : n / 262144 = 0 := by omega
    exact ⟨0x90, 0xBF, by rw [this], by omega, by omega⟩
  · split
    · rw [Nat.add_sub_cancel]
      exact ⟨0x80, 0xBF, rfl, by omega, by omega⟩
    · have : n / 262144 = 4 := by omega
      rw [if_pos (by omega), this]
      exact ⟨0x80, 0x8F, rfl, by omega, by omega⟩

theorem ofNat_val_toNat (c : Char) : Char.ofNat c.val.toNat = c := Char.ofNat_toNat c

/-- The bytes of a character, with any others behind them, start with that character. -/
theorem exists_piece_encodeChar (c : Char) (rest : List UInt8) :
    ∃ b bs, String.utf8EncodeChar c = b :: bs ∧ piece b (bs ++ rest) = .char c (bs.length + 1) := by
  have valid : c.val.toNat < 0xD800 ∨ 0xDFFF < c.val.toNat ∧ c.val.toNat < 0x110000 := c.valid
  have code := ofNat_val_toNat c
  unfold String.utf8EncodeChar
  generalize c.val.toNat = n at valid code
  simp only
  split
  · next one =>
    refine ⟨_, _, rfl, ?_⟩
    have value : (UInt8.ofNat n).toNat = n := toNat_byte (by omega)
    have first : Lead.ofByte? (UInt8.ofNat n) = some ⟨0, 0x80, 0xBF, n⟩ := by
      simp only [Lead.ofByte?, value]
      rw [if_pos (by omega)]
    rw [piece, first]
    exact (pieceFrom_of_owed_eq_zero rfl _ _).trans (by rw [code]; rfl)
  · split
    · next two =>
      refine ⟨_, _, rfl, ?_⟩
      rw [piece, ofByte?_two (by omega) two]
      simp only [List.cons_append, List.nil_append]
      rw [pieceFrom_of_step (step?_tail (by omega) (by omega)),
        pieceFrom_of_owed_eq_zero rfl]
      simp only [List.length_cons, List.length_nil]
      rw [show n / 64 * 64 + n % 64 = n by omega, code]
    · split
      · next three =>
        refine ⟨_, _, rfl, ?_⟩
        obtain ⟨low, high, first, hlow, hhigh⟩ :=
          ofByte?_three (n := n) (by omega) three (by omega)
        rw [piece, first]
        simp only [List.cons_append, List.nil_append]
        rw [pieceFrom_of_step (step?_tail hlow hhigh),
          pieceFrom_of_step (step?_tail (by omega) (by omega)), pieceFrom_of_owed_eq_zero rfl]
        simp only [List.length_cons, List.length_nil]
        rw [show (n / 4096 * 64 + n / 64 % 64) * 64 + n % 64 = n by omega, code]
      · refine ⟨_, _, rfl, ?_⟩
        obtain ⟨low, high, first, hlow, hhigh⟩ :=
          ofByte?_four (n := n) (by omega) (by omega)
        rw [piece, first]
        simp only [List.cons_append, List.nil_append]
        rw [pieceFrom_of_step (step?_tail hlow hhigh),
          pieceFrom_of_step (step?_tail (by omega) (by omega)),
          pieceFrom_of_step (step?_tail (by omega) (by omega)), pieceFrom_of_owed_eq_zero rfl]
        simp only [List.length_cons, List.length_nil]
        rw [show ((n / 262144 * 64 + n / 4096 % 64) * 64 + n / 64 % 64) * 64 + n % 64 = n by omega,
          code]

/-- Reading the bytes of a character gives it and goes on behind them. -/
theorem pieces_encodeChar_append (c : Char) (rest : List UInt8) :
    pieces (String.utf8EncodeChar c ++ rest) = some c :: pieces rest := by
  obtain ⟨b, bs, bytes, first⟩ := exists_piece_encodeChar c rest
  rw [bytes, List.cons_append, pieces, first]
  simp

/-! ## Whole strings -/

theorem pieces_encode (cs : List Char) :
    pieces (cs.flatMap String.utf8EncodeChar) = cs.map some := by
  induction cs with
  | nil => rw [List.flatMap_nil, pieces, List.map_nil]
  | cons c cs ih => rw [List.flatMap_cons, pieces_encodeChar_append, ih, List.map_cons]

/-- What is read is all characters if it is the list of them. -/
theorem mapM_id_eq_some_iff {read : List (Option Char)} {cs : List Char} :
    read.mapM id = some cs ↔ read = cs.map some := by
  induction read generalizing cs with
  | nil => cases cs <;> simp
  | cons c? read ih =>
    cases c? with
    | none => cases cs <;> simp [List.mapM_cons]
    | some c =>
      cases cs with
      | nil => simp [List.mapM_cons, Option.bind_eq_some_iff]
      | cons d cs => simpa [List.mapM_cons, Option.bind_eq_some_iff, ih] using and_comm

/-- The bytes of a string are read as that string. -/
theorem decode?_ofString (s : String) : decode? (Text.ofString s) = some s := by
  rw [decode?, toList_ofString, pieces_encode, mapM_id_eq_some_iff.mpr rfl, Option.map_some,
    String.ofList_toList]

end Glr.Utf8
