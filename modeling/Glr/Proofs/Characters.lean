import Glr.Proofs.Encoding

/-!
# Characters byte by byte

The bytes that complete a character read in part are a matter of its `Lead` alone: `Lead.Completes`
says which code point some bytes complete.  From the leading byte on these are the bytes that
`String.utf8EncodeChar` gives, no more and no fewer (`encodeChar_eq_cons_iff`); so to read a
character is to take one byte after another off its encoding.
-/

namespace Glr.Utf8

namespace Lead

/-- The code point that bytes complete a character to. -/
def Completes (l : Lead) : List UInt8 → Nat → Prop
  | [], code => l.owed = 0 ∧ l.bits = code
  | b :: bs, code => ∃ next, l.step? b = some next ∧ next.Completes bs code

variable {owed low high bits : Nat} {w : List UInt8} {code : Nat}

theorem completes_zero :
    (⟨0, low, high, bits⟩ : Lead).Completes w code ↔ w = [] ∧ bits = code := by
  cases w with
  | nil => simp [Completes]
  | cons b bs => simp [Completes, step?]

/-- A byte that is owed lies in its range and adds its six bits. -/
theorem completes_succ :
    (⟨owed + 1, low, high, bits⟩ : Lead).Completes w code ↔
      ∃ b bs, w = b :: bs ∧ low ≤ b.toNat ∧ b.toNat ≤ high ∧
        (⟨owed, 0x80, 0xBF, bits * 64 + (b.toNat - 0x80)⟩ : Lead).Completes bs code := by
  cases w with
  | nil => simp [Completes]
  | cons b bs =>
    constructor
    · rintro ⟨next, stepped, rest⟩
      rw [step?, if_neg (Nat.succ_ne_zero owed)] at stepped
      split at stepped
      · next inside =>
        cases stepped
        rw [Bool.and_eq_true, decide_eq_true_eq, decide_eq_true_eq] at inside
        exact ⟨b, bs, rfl, inside.1, inside.2, rest⟩
      · cases stepped
    · rintro ⟨_, _, same, above, below, rest⟩
      cases same
      refine ⟨_, ?_, rest⟩
      rw [step?, if_neg (Nat.succ_ne_zero owed), if_pos (by simp [above, below])]
      rfl

/-- What completes a character has a code point between its least and its greatest one. -/
theorem Completes.bounds : ∀ {w : List UInt8} {l : Lead}, l.Completes w code →
    l.least ≤ code ∧ code ≤ l.greatest := by
  intro w
  induction w with
  | nil =>
    rintro l ⟨owed, rfl⟩
    simp [least, greatest, owed]
  | cons b bs ih =>
    rintro ⟨owed, low, high, bits⟩ completes
    cases owed with
    | zero => exact absurd (completes_zero.mp completes).1 (List.cons_ne_nil _ _)
    | succ owed =>
      obtain ⟨_, _, same, above, below, rest⟩ := completes_succ.mp completes
      cases same
      obtain ⟨lower, upper⟩ := ih rest
      have least : bits * 64 + (low - 0x80) ≤ bits * 64 + (b.toNat - 0x80) := by omega
      have greatest : bits * 64 + (b.toNat - 0x80) + 1 ≤ bits * 64 + (high - 0x80) + 1 := by omega
      generalize bits * 64 + (b.toNat - 0x80) = read at rest lower upper least greatest
      cases owed with
      | zero =>
        simp only [Lead.least, Lead.greatest, Nat.shiftLeft_eq] at lower upper ⊢
        simp at lower upper ⊢
        omega
      | succ owed =>
        -- Six bits more are owed by every byte that is.
        have width : 2 ^ (6 * (owed + 1)) = 64 * 2 ^ (6 * owed) := by
          rw [Nat.mul_add, Nat.pow_add, Nat.mul_comm]
        have least := Nat.mul_le_mul_right (64 * 2 ^ (6 * owed)) least
        have greatest := Nat.mul_le_mul_right (64 * 2 ^ (6 * owed)) greatest
        simp only [Lead.least, Lead.greatest, Nat.shiftLeft_eq, Nat.add_sub_cancel,
          Nat.succ_ne_zero, if_false, width] at lower upper ⊢
        rw [← Nat.mul_assoc] at least greatest
        simp only [← Nat.mul_assoc] at least greatest ⊢
        rw [Nat.sub_self, Nat.add_zero] at lower
        rw [show read * 64 + (0xBF - 0x80) + 1 = (read + 1) * 64 by omega] at upper
        omega

end Lead

/-! ## Whole characters -/

/-- The leading bytes, by the number of bytes that they owe, and what each leaves for the next. -/
theorem ofByte?_cases {b : UInt8} {l : Lead} (begins : Lead.ofByte? b = some l) :
    (b.toNat < 0x80 ∧ l = ⟨0, 0x80, 0xBF, b.toNat⟩) ∨
    (0xC2 ≤ b.toNat ∧ b.toNat < 0xE0 ∧ l = ⟨1, 0x80, 0xBF, b.toNat - 0xC0⟩) ∨
    (∃ low high, 0xE0 ≤ b.toNat ∧ b.toNat < 0xF0 ∧ 0x80 ≤ low ∧ high ≤ 0xBF ∧
      (b.toNat = 0xE0 → 0xA0 ≤ low) ∧ (b.toNat = 0xED → high ≤ 0x9F) ∧
        l = ⟨2, low, high, b.toNat - 0xE0⟩) ∨
    ∃ low high, 0xF0 ≤ b.toNat ∧ b.toNat ≤ 0xF4 ∧ 0x80 ≤ low ∧ high ≤ 0xBF ∧
      (b.toNat = 0xF0 → 0x90 ≤ low) ∧ (b.toNat = 0xF4 → high ≤ 0x8F) ∧
        l = ⟨3, low, high, b.toNat - 0xF0⟩ := by
  unfold Lead.ofByte? at begins
  dsimp only at begins
  generalize b.toNat = n at begins ⊢
  split at begins
  · exact Or.inl ⟨‹_›, (Option.some.inj begins).symm⟩
  split at begins
  · cases begins
  split at begins
  · exact Or.inr (Or.inl ⟨by omega, ‹_›, (Option.some.inj begins).symm⟩)
  split at begins
  · next first =>
    subst first
    refine Or.inr (Or.inr (Or.inl ⟨_, _, ?_, ?_, ?_, ?_, ?_, ?_, (Option.some.inj begins).symm⟩))
    all_goals omega
  split at begins
  · next surrogates =>
    subst surrogates
    refine Or.inr (Or.inr (Or.inl ⟨_, _, ?_, ?_, ?_, ?_, ?_, ?_, (Option.some.inj begins).symm⟩))
    all_goals omega
  split at begins
  · refine Or.inr (Or.inr (Or.inl ⟨_, _, ?_, ?_, ?_, ?_, ?_, ?_, (Option.some.inj begins).symm⟩))
    all_goals omega
  split at begins
  · next first =>
    subst first
    refine Or.inr (Or.inr (Or.inr ⟨_, _, ?_, ?_, ?_, ?_, ?_, ?_, (Option.some.inj begins).symm⟩))
    all_goals omega
  split at begins
  · refine Or.inr (Or.inr (Or.inr ⟨_, _, ?_, ?_, ?_, ?_, ?_, ?_, (Option.some.inj begins).symm⟩))
    all_goals omega
  split at begins
  · next last =>
    subst last
    refine Or.inr (Or.inr (Or.inr ⟨_, _, ?_, ?_, ?_, ?_, ?_, ?_, (Option.some.inj begins).symm⟩))
    all_goals omega
  · cases begins

theorem toNat_ofNat {code : Nat} (valid : code.isValidChar) : (Char.ofNat code).toNat = code := by
  rw [Char.ofNat, dif_pos valid]
  rfl

theorem ofNat_eq {n : Nat} {b : UInt8} (h : n = b.toNat) : UInt8.ofNat n = b := by
  rw [h, UInt8.ofNat_toNat]

theorem exists_char_of_valid {code : Nat} {bytes : List UInt8} (valid : code.isValidChar)
    (encoded : (Char.ofNat code).val.toNat = code →
      String.utf8EncodeChar (Char.ofNat code) = bytes) :
    ∃ c : Char, c.toNat = code ∧ String.utf8EncodeChar c = bytes :=
  ⟨_, toNat_ofNat valid, encoded (toNat_ofNat valid)⟩

/-- The bytes that a leading byte and what completes it make are those of a character. -/
theorem encodeChar_of_completes {b : UInt8} {w : List UInt8} {l : Lead} {code : Nat}
    (begins : Lead.ofByte? b = some l) (completes : l.Completes w code) :
    ∃ c : Char, c.toNat = code ∧ String.utf8EncodeChar c = b :: w := by
  rcases ofByte?_cases begins with ⟨one, rfl⟩ | ⟨low₁, high₁, rfl⟩ |
    ⟨low, high, low₁, high₁, low₂, high₂, first, surrogates, rfl⟩ |
    ⟨low, high, low₁, high₁, low₂, high₂, first, last, rfl⟩
  · obtain ⟨rfl, rfl⟩ := Lead.completes_zero.mp completes
    refine exists_char_of_valid (by omega) fun code => ?_
    simp only [String.utf8EncodeChar, code]
    rw [if_pos (by omega), ofNat_eq rfl]
  · obtain ⟨b₁, w, rfl, low₂, high₂, completes⟩ := Lead.completes_succ.mp completes
    obtain ⟨rfl, rfl⟩ := Lead.completes_zero.mp completes
    refine exists_char_of_valid (by omega) fun code => ?_
    simp only [String.utf8EncodeChar, code]
    rw [if_neg (by omega), if_pos (by omega), ofNat_eq (b := b) (by omega),
      ofNat_eq (b := b₁) (by omega)]
  · obtain ⟨b₁, w, rfl, low₃, high₃, completes⟩ := Lead.completes_succ.mp completes
    obtain ⟨b₂, w, rfl, low₄, high₄, completes⟩ := Lead.completes_succ.mp completes
    obtain ⟨rfl, rfl⟩ := Lead.completes_zero.mp completes
    refine exists_char_of_valid (by omega) fun code => ?_
    simp only [String.utf8EncodeChar, code]
    rw [if_neg (by omega), if_neg (by omega), if_pos (by omega), ofNat_eq (b := b) (by omega),
      ofNat_eq (b := b₁) (by omega), ofNat_eq (b := b₂) (by omega)]
  · obtain ⟨b₁, w, rfl, low₃, high₃, completes⟩ := Lead.completes_succ.mp completes
    obtain ⟨b₂, w, rfl, low₄, high₄, completes⟩ := Lead.completes_succ.mp completes
    obtain ⟨b₃, w, rfl, low₅, high₅, completes⟩ := Lead.completes_succ.mp completes
    obtain ⟨rfl, rfl⟩ := Lead.completes_zero.mp completes
    refine exists_char_of_valid (by omega) fun code => ?_
    simp only [String.utf8EncodeChar, code]
    rw [if_neg (by omega), if_neg (by omega), if_neg (by omega), ofNat_eq (b := b) (by omega),
      ofNat_eq (b := b₁) (by omega), ofNat_eq (b := b₂) (by omega),
      ofNat_eq (b := b₃) (by omega)]

/-- The bytes that are read as a character complete it, whatever is behind them. -/
theorem exists_completes_of_pieceFrom {c : Char} {n : Nat} : ∀ {bs : List UInt8} {l : Lead}
    {taken : Nat}, pieceFrom l taken bs = .char c n → ∃ w v code,
      bs = w ++ v ∧ n = taken + w.length ∧ l.Completes w code ∧ c = Char.ofNat code := by
  intro bs
  induction bs with
  | nil =>
    intro l taken read
    rw [pieceFrom] at read
    split at read
    · next none =>
      cases read
      exact ⟨[], [], l.bits, rfl, rfl, ⟨none, rfl⟩, rfl⟩
    · cases read
  | cons b bs ih =>
    intro l taken read
    rw [pieceFrom] at read
    split at read
    · next none =>
      cases read
      exact ⟨[], b :: bs, l.bits, rfl, rfl, ⟨none, rfl⟩, rfl⟩
    · split at read
      · next next stepped =>
        obtain ⟨w, v, code, rfl, rfl, completes, same⟩ := ih read
        refine ⟨b :: w, v, code, rfl, ?_, ⟨next, stepped, completes⟩, same⟩
        rw [List.length_cons]
        omega
      · cases read

/-- What is read as a character is the encoding of that character, and something behind it. -/
theorem encodeChar_of_piece {c : Char} {n : Nat} {b : UInt8} {bs : List UInt8}
    (read : piece b bs = .char c n) :
    ∃ w v, bs = w ++ v ∧ n = w.length + 1 ∧ String.utf8EncodeChar c = b :: w := by
  rw [piece] at read
  split at read
  · next l begins =>
    obtain ⟨w, v, code, same, length, completes, rfl⟩ := exists_completes_of_pieceFrom read
    obtain ⟨d, rfl, bytes⟩ := encodeChar_of_completes begins completes
    rw [Char.ofNat_toNat]
    exact ⟨w, v, same, length.trans (Nat.add_comm _ _), bytes⟩
  · cases read

/-- To read a character is to take one byte after another off its encoding. -/
theorem encodeChar_eq_cons_iff {c : Char} {b : UInt8} {w : List UInt8} :
    String.utf8EncodeChar c = b :: w ↔
      ∃ l, Lead.ofByte? b = some l ∧ l.Completes w c.toNat := by
  constructor
  · intro bytes
    obtain ⟨b', bs, same, read⟩ := exists_piece_encodeChar c []
    rw [bytes] at same
    cases same
    rw [List.append_nil, piece] at read
    split at read
    · next l begins =>
      obtain ⟨u, v, code, rfl, length, completes, same⟩ := exists_completes_of_pieceFrom read
      obtain ⟨d, rfl, -⟩ := encodeChar_of_completes begins completes
      obtain rfl : v = [] := List.eq_nil_of_length_eq_zero (by
        rw [List.length_append] at length
        omega)
      rw [same, Char.ofNat_toNat, List.append_nil]
      exact ⟨l, begins, completes⟩
    · cases read
  · rintro ⟨l, begins, completes⟩
    obtain ⟨d, same, bytes⟩ := encodeChar_of_completes begins completes
    rw [← Char.toNat_inj.mp same]
    exact bytes

end Glr.Utf8
