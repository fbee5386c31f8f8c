import Glr.Proofs.Encoding
import Glr.Tables.Json
import Mathlib.Data.List.TakeDrop

/-!
# Values read as they were written

`Json.render` writes behind what is already there and `Json.read?` takes bytes off the front, with
a bound on the values still to be read.  Both go down the same tree, so the proof does as well:
what is written of a value, with anything behind it that can stand behind a value, is read as that
value, and reading stops right behind it (`readValue_written`).

Two things cannot be read back, a `decimal` and a string that is not known; `Plain` leaves them out.
What may stand behind a value matters for numbers only, whose end is not marked: `Closed` says that
the next byte is no part of one.  The bound is generous.  Each value takes one step and at least
one byte, each item one more step and a comma, so twice the bytes are always enough.
-/

namespace Glr.Json

/-- A value without numbers that are no integers and without strings that are not known. -/
inductive Plain : Json → Prop where
  | null : Plain null
  | bool (b : Bool) : Plain (bool b)
  | int (n : Int) : Plain (int n)
  | str (s : String) : Plain (str (some s))
  | arr {items : List Json} (plain : ∀ v ∈ items, Plain v) : Plain (arr items)
  | obj {fields : List (Option String × Json)} (known : ∀ f ∈ fields, f.1.isSome)
      (plain : ∀ f ∈ fields, Plain f.2) : Plain (obj fields)

/-- Bytes at which a value has ended: none, or a comma or a closing bracket. -/
def Closed (bs : List UInt8) : Prop := ∀ b ∈ bs.head?, b = 0x2C ∨ b = 0x5D ∨ b = 0x7D

/-! ## What is written -/

/-- The bytes of a character within quotes. -/
def escaped (c : Char) : List UInt8 := (Text.ofString (renderChar c)).toList

/-- The bytes of a string in its quotes. -/
def quoted (s : String) : List UInt8 := 0x22 :: (s.toList.flatMap escaped ++ [0x22])

mutual

/-- The bytes of a value. -/
def written : Json → List UInt8
  | null => [0x6E, 0x75, 0x6C, 0x6C]
  | bool true => [0x74, 0x72, 0x75, 0x65]
  | bool false => [0x66, 0x61, 0x6C, 0x73, 0x65]
  | int n => (Text.ofString (toString n)).toList
  | decimal => [0x30, 0x2E, 0x35]
  | str s => quoted (s.getD "")
  | arr items => 0x5B :: (writtenItems true items ++ [0x5D])
  | obj fields => 0x7B :: (writtenFields true fields ++ [0x7D])

/-- The bytes of items, with a comma before each but the first. -/
def writtenItems (first : Bool) : List Json → List UInt8
  | [] => []
  | v :: vs => (if first then [] else [0x2C]) ++ (written v ++ writtenItems false vs)

/-- The bytes of fields, with a comma before each but the first. -/
def writtenFields (first : Bool) : List (Option String × Json) → List UInt8
  | [] => []
  | (key, v) :: fs =>
    (if first then [] else [0x2C]) ++
      (quoted (key.getD "") ++ 0x3A :: (written v ++ writtenFields false fs))

end

theorem toList_renderString (s : String) : (Text.ofString (renderString s)).toList = quoted s := by
  have chars (cs : List Char) (out : String) :
      (Text.ofString (cs.foldl (fun out c => out ++ renderChar c) out)).toList
        = (Text.ofString out).toList ++ cs.flatMap escaped := by
    induction cs generalizing out with
    | nil => simp
    | cons c cs ih =>
      rw [List.foldl_cons, ih, Utf8.toList_ofString_append, List.flatMap_cons, List.append_assoc]
      rfl
  rw [renderString, Utf8.toList_ofString_push, String.foldl_eq_foldl_toList, chars]
  rfl

mutual

/-- Writing a value puts its bytes behind those that are there. -/
theorem toList_renderTo (out : String) (v : Json) :
    (Text.ofString (renderTo out v)).toList = (Text.ofString out).toList ++ written v := by
  cases v with
  | null => rw [renderTo, Utf8.toList_ofString_append]; rfl
  | bool b => cases b <;> (rw [renderTo, Utf8.toList_ofString_append]; rfl)
  | int n => rw [renderTo, Utf8.toList_ofString_append, written]
  | decimal => rw [renderTo, Utf8.toList_ofString_append]; rfl
  | str s => rw [renderTo, Utf8.toList_ofString_append, toList_renderString, written]
  | arr items =>
    rw [renderTo, Utf8.toList_ofString_push, toList_renderItems, Utf8.toList_ofString_push, written,
      List.append_assoc, List.append_assoc]
    rfl
  | obj fields =>
    rw [renderTo, Utf8.toList_ofString_push, toList_renderFields, Utf8.toList_ofString_push,
      written, List.append_assoc, List.append_assoc]
    rfl
termination_by sizeOf v

theorem toList_renderItems (out : String) (first : Bool) (items : List Json) :
    (Text.ofString (renderItems out first items)).toList
      = (Text.ofString out).toList ++ writtenItems first items := by
  cases items with
  | nil => rw [renderItems, writtenItems, List.append_nil]
  | cons v vs =>
    rw [renderItems, toList_renderItems _ false vs, toList_renderTo, writtenItems]
    cases first
    · simp only [Bool.false_eq_true, if_false, Utf8.toList_ofString_push, List.append_assoc]
      rfl
    · simp
termination_by sizeOf items

theorem toList_renderFields (out : String) (first : Bool) (fields : List (Option String × Json)) :
    (Text.ofString (renderFields out first fields)).toList
      = (Text.ofString out).toList ++ writtenFields first fields := by
  cases fields with
  | nil => rw [renderFields, writtenFields, List.append_nil]
  | cons f fs =>
    obtain ⟨key, v⟩ := f
    rw [renderFields, toList_renderFields _ false fs, toList_renderTo, Utf8.toList_ofString_push,
      Utf8.toList_ofString_append, toList_renderString, writtenFields]
    cases first
    · simp only [Bool.false_eq_true, if_false, Utf8.toList_ofString_push, List.append_assoc]
      rfl
    · simp only [if_true, List.append_assoc, List.nil_append]
      rfl
termination_by sizeOf fields

end

theorem toList_render (v : Json) : (Text.ofString v.render).toList = written v := by
  rw [render, toList_renderTo, Utf8.toList_ofString]
  rfl

/-- The bytes of a field. -/
def writtenField (f : Option String × Json) : List UInt8 :=
  quoted (f.1.getD "") ++ 0x3A :: written f.2

theorem writtenItems_false (vs : List Json) :
    writtenItems false vs = vs.flatMap fun v => 0x2C :: written v := by
  induction vs with
  | nil => rfl
  | cons v vs ih =>
    rw [writtenItems, ih]
    rfl

theorem writtenFields_false (fs : List (Option String × Json)) :
    writtenFields false fs = fs.flatMap fun f => 0x2C :: writtenField f := by
  induction fs with
  | nil => rfl
  | cons f fs ih =>
    obtain ⟨key, v⟩ := f
    rw [writtenFields, ih, List.flatMap_cons, writtenField]
    simp

theorem written_arr_cons (v : Json) (vs : List Json) :
    written (arr (v :: vs))
      = 0x5B :: (written v ++ (vs.flatMap fun w => 0x2C :: written w) ++ [0x5D]) := by
  rw [written, writtenItems, writtenItems_false]
  rfl

theorem written_obj_cons (f : Option String × Json) (fs : List (Option String × Json)) :
    written (obj (f :: fs))
      = 0x7B :: (writtenField f ++ (fs.flatMap fun g => 0x2C :: writtenField g) ++ [0x7D]) := by
  obtain ⟨key, v⟩ := f
  rw [written, writtenFields, writtenFields_false, writtenField]
  simp

/-! ## Strings -/

/-- A byte that stands for itself within quotes. -/
def Ordinary (b : UInt8) : Prop := b ≠ 0x22 ∧ b ≠ 0x5C ∧ ¬ b < 0x20

theorem readPieces_ordinary {bs : List UInt8} (h : ∀ b ∈ bs, Ordinary b) (ps : List StringPiece)
    (rest : List UInt8) :
    readPieces ps (bs ++ rest) = readPieces ((bs.map .byte).reverse ++ ps) rest := by
  induction bs generalizing ps with
  | nil => rfl
  | cons b bs ih =>
    obtain ⟨quote, backslash, control⟩ := h b List.mem_cons_self
    rw [List.cons_append, readPieces.eq_def]
    simp only [if_neg quote, if_neg backslash, if_neg control]
    rw [ih (fun b hb => h b (List.mem_cons_of_mem _ hb))]
    simp

theorem readPieces_escape {e b : UInt8} (h : escapedByte? e = some b) (ps : List StringPiece)
    (rest : List UInt8) :
    readPieces ps (0x5C :: e :: rest) = readPieces (.byte b :: ps) rest := by
  have letter : e ≠ 0x75 := by
    rintro rfl
    have none : escapedByte? 0x75 = none := by decide
    rw [none] at h
    cases h
  rw [readPieces.eq_def]
  simp [h, letter]

theorem readPieces_unit {a b c d : UInt8} {u : Nat} (h : unitValue? a b c d = some u)
    (ps : List StringPiece) (rest : List UInt8) :
    readPieces ps (0x5C :: 0x75 :: a :: b :: c :: d :: rest) = readPieces (.unit u :: ps) rest := by
  rw [readPieces.eq_def]
  simp [h]

theorem piecesToBytes_bytes (bs : List UInt8) (ps : List StringPiece) :
    piecesToBytes (bs.map .byte ++ ps) = (piecesToBytes ps).map (bs ++ ·) := by
  induction bs with
  | nil => simp
  | cons b bs ih =>
    rw [List.map_cons, List.cons_append, piecesToBytes, ih, Option.map_map]
    rfl

/-- A unit that is no surrogate stands for its own character, whatever follows. -/
theorem piecesToBytes_unit {u : Nat} (h : u < 0xD800) (ps : List StringPiece) :
    piecesToBytes (.unit u :: ps) = (piecesToBytes ps).map (encodeCode u ++ ·) := by
  cases ps with
  | nil => simp [piecesToBytes, show ¬ 0xD800 ≤ u by omega]
  | cons p ps =>
    cases p with
    | byte b => simp [piecesToBytes, show ¬ 0xD800 ≤ u by omega]
    | unit v =>
      rw [piecesToBytes]
      simp [show ¬ 0xD800 ≤ u by omega, show ¬ 0xDC00 ≤ u by omega]

/-- A control character is one byte, and so is what its number stands for. -/
theorem encodeCode_control :
    ∀ n < 0x20, encodeCode n = String.utf8EncodeChar (Char.ofNat n) := by
  decide +kernel

theorem unitValue?_control : ∀ n < 0x20,
    unitValue? 0x30 0x30 (UInt8.ofNat (hexDigit (n / 16)).toNat)
      (UInt8.ofNat (hexDigit (n % 16)).toNat) = some n := by
  decide

theorem escaped_control : ∀ n < 0x20, n ∉ [0x08, 0x09, 0x0A, 0x0C, 0x0D] →
    escaped (Char.ofNat n) = [0x5C, 0x75, 0x30, 0x30, UInt8.ofNat (hexDigit (n / 16)).toNat,
      UInt8.ofNat (hexDigit (n % 16)).toNat] := by
  decide +kernel

theorem ordinary_of_toNat {b : UInt8} (quote : b.toNat ≠ 0x22) (backslash : b.toNat ≠ 0x5C)
    (control : 0x20 ≤ b.toNat) : Ordinary b := by
  refine ⟨?_, ?_, ?_⟩
  · rintro rfl
    exact quote rfl
  · rintro rfl
    exact backslash rfl
  · rw [UInt8.lt_iff_toNat_lt]
    exact Nat.not_lt.mpr control

/-- The bytes of a character that is written as it stands stand for themselves. -/
theorem ordinary_of_mem_encodeChar {c : Char} (quote : c ≠ '\x22') (backslash : c ≠ '\\')
    (control : ¬ c.toNat < 0x20) {b : UInt8} (h : b ∈ String.utf8EncodeChar c) : Ordinary b := by
  have code : c.val.toNat < 0x110000 := by
    have := c.valid
    simp only [UInt32.isValidChar, Nat.isValidChar] at this
    omega
  have quote' : c.val.toNat ≠ 0x22 := fun h => quote (Char.ext (UInt32.toNat_inj.mp h))
  have backslash' : c.val.toNat ≠ 0x5C := fun h => backslash (Char.ext (UInt32.toNat_inj.mp h))
  have control' : 0x20 ≤ c.val.toNat := Nat.not_lt.mp control
  unfold String.utf8EncodeChar at h
  generalize c.val.toNat = n at code quote' backslash' control' h
  simp only at h
  -- One byte is the character itself; every byte of a longer one is past the first 128.
  split at h
  · next one =>
    obtain rfl := List.mem_singleton.mp h
    have value : (UInt8.ofNat n).toNat = n := Utf8.toNat_byte (by omega)
    exact ordinary_of_toNat (by omega) (by omega) (by omega)
  · suffices 128 ≤ b.toNat from ordinary_of_toNat (by omega) (by omega) (by omega)
    split at h
    · simp only [List.mem_cons, List.not_mem_nil, or_false] at h
      rcases h with rfl | rfl <;> rw [Utf8.toNat_byte (by omega)] <;> omega
    · split at h
      · simp only [List.mem_cons, List.not_mem_nil, or_false] at h
        rcases h with rfl | rfl | rfl <;> rw [Utf8.toNat_byte (by omega)] <;> omega
      · simp only [List.mem_cons, List.not_mem_nil, or_false] at h
        rcases h with rfl | rfl | rfl | rfl <;> rw [Utf8.toNat_byte (by omega)] <;> omega

/-- Pieces that spell a character: what is written of it is read as them, and they stand for its
bytes. -/
def Spells (c : Char) (qs : List StringPiece) : Prop :=
  (∀ ps rest, readPieces ps (escaped c ++ rest) = readPieces (qs.reverse ++ ps) rest) ∧
  ∀ ps, piecesToBytes (qs ++ ps) = (piecesToBytes ps).map (String.utf8EncodeChar c ++ ·)

theorem spells_of_escape {c : Char} {e b : UInt8} (written : escaped c = [0x5C, e])
    (letter : escapedByte? e = some b) (byte : String.utf8EncodeChar c = [b]) :
    Spells c [.byte b] := by
  refine ⟨fun ps rest => ?_, fun ps => ?_⟩
  · rw [written]
    exact readPieces_escape letter ps rest
  · rw [byte]
    exact piecesToBytes_bytes [b] ps

/-- Every character is spelled by what is written of it. -/
theorem exists_spells (c : Char) : ∃ qs, Spells c qs := by
  by_cases quote : c = '\x22'
  · subst quote; exact ⟨_, spells_of_escape (e := 0x22) rfl rfl rfl⟩
  by_cases backslash : c = '\\'
  · subst backslash; exact ⟨_, spells_of_escape (e := 0x5C) rfl rfl rfl⟩
  by_cases backspace : c = '\x08'
  · subst backspace; exact ⟨_, spells_of_escape (e := 0x62) rfl rfl rfl⟩
  by_cases tab : c = '\t'
  · subst tab; exact ⟨_, spells_of_escape (e := 0x74) rfl rfl rfl⟩
  by_cases newline : c = '\n'
  · subst newline; exact ⟨_, spells_of_escape (e := 0x6E) rfl rfl rfl⟩
  by_cases feed : c = '\x0C'
  · subst feed; exact ⟨_, spells_of_escape (e := 0x66) rfl rfl rfl⟩
  by_cases return' : c = '\r'
  · subst return'; exact ⟨_, spells_of_escape (e := 0x72) rfl rfl rfl⟩
  by_cases control : c.toNat < 0x20
  · have code (n : Nat) (h : c ≠ Char.ofNat n) : c.toNat ≠ n := by
      rintro rfl
      exact h (Char.ofNat_toNat c).symm
    have number := escaped_control c.toNat control (by
      simp [code _ backspace, code _ tab, code _ newline, code _ feed, code _ return'])
    have bytes := encodeCode_control c.toNat control
    rw [Char.ofNat_toNat] at number bytes
    refine ⟨[.unit c.toNat], fun ps rest => ?_, fun ps => ?_⟩
    · rw [number]
      exact readPieces_unit (unitValue?_control c.toNat control) ps rest
    · rw [← bytes]
      exact piecesToBytes_unit (by omega) ps
  · refine ⟨(String.utf8EncodeChar c).map .byte, fun ps rest => ?_, fun ps => ?_⟩
    · have plain : escaped c = String.utf8EncodeChar c := by
        simp [escaped, renderChar, quote, backslash, backspace, tab, newline, feed, return',
          control, Utf8.toList_ofString]
      rw [plain]
      exact readPieces_ordinary
        (fun b hb => ordinary_of_mem_encodeChar quote backslash control hb) ps rest
    · exact piecesToBytes_bytes _ ps

/-- What is written of characters, up to the closing quote, is read as pieces that spell them. -/
theorem exists_readPieces (cs : List Char) : ∃ qs,
    (∀ ps rest,
      readPieces ps (cs.flatMap escaped ++ 0x22 :: rest) = some (qs.reverse ++ ps, rest)) ∧
    piecesToBytes qs = some (cs.flatMap String.utf8EncodeChar) := by
  induction cs with
  | nil =>
    refine ⟨[], fun ps rest => ?_, rfl⟩
    rw [List.flatMap_nil, List.nil_append, readPieces.eq_def]
    simp
  | cons c cs ih =>
    obtain ⟨qs, read, bytes⟩ := exists_spells c
    obtain ⟨more, readMore, bytesMore⟩ := ih
    refine ⟨qs ++ more, fun ps rest => ?_, ?_⟩
    · rw [List.flatMap_cons, List.append_assoc, read, readMore, List.reverse_append,
        List.append_assoc]
    · rw [bytes, bytesMore, List.flatMap_cons, Option.map_some]

/-- A string is read as it was written. -/
theorem readString_quoted (s : String) (rest : List UInt8) :
    ∃ bs, quoted s = 0x22 :: bs ∧ readString (bs ++ rest) = some (some s, rest) := by
  obtain ⟨qs, read, bytes⟩ := exists_readPieces s.toList
  refine ⟨_, rfl, ?_⟩
  rw [List.append_assoc, List.singleton_append, readString, read [] rest]
  simp only [List.append_nil, List.reverse_reverse, piecesToString?, bytes]
  rw [← Utf8.toList_ofString]
  simp [Utf8.decode?_ofString]

/-! ## Numbers -/

/-- The bytes of a natural number. -/
def digits (n : Nat) : List UInt8 := (Text.ofString n.repr).toList

theorem encodeChar_of_isDigit {c : Char} (h : c.isDigit) :
    ∃ b, String.utf8EncodeChar c = [b] ∧ isDigit b ∧ b.toNat = c.toNat := by
  simp only [Char.isDigit, Bool.and_eq_true, decide_eq_true_eq, ge_iff_le,
    UInt32.le_iff_toNat_le] at h
  change 48 ≤ c.toNat ∧ c.toNat ≤ 57 at h
  have value : (UInt8.ofNat c.toNat).toNat = c.toNat := Utf8.toNat_byte (by omega)
  refine ⟨UInt8.ofNat c.toNat, ?_, ?_, value⟩
  · unfold String.utf8EncodeChar
    change (if c.toNat ≤ 127 then _ else _) = _
    rw [if_pos (by omega)]
    rfl
  · simp only [isDigit, UInt8.le_iff_toNat_le, value, Bool.and_eq_true, decide_eq_true_eq]
    exact h

theorem exists_digits {cs : List Char} (h : ∀ c ∈ cs, c.isDigit) :
    (∀ b ∈ cs.flatMap String.utf8EncodeChar, isDigit b) ∧
    (cs.flatMap String.utf8EncodeChar).map UInt8.toNat = cs.map Char.toNat := by
  induction cs with
  | nil => simp
  | cons c cs ih =>
    obtain ⟨b, bytes, digit, value⟩ := encodeChar_of_isDigit (h c List.mem_cons_self)
    obtain ⟨all, values⟩ := ih fun c hc => h c (List.mem_cons_of_mem _ hc)
    rw [List.flatMap_cons, bytes]
    refine ⟨?_, by simp [value, values]⟩
    intro b' hb'
    rcases List.mem_cons.mp hb' with rfl | hb'
    · exact digit
    · exact all b' hb'

theorem toDigits_isDigit (n : Nat) : ∀ c ∈ Nat.toDigits 10 n, c.isDigit :=
  fun _ hc => Nat.isDigit_of_mem_toDigits (by omega) (by omega) hc

theorem digits_eq (n : Nat) : digits n = (Nat.toDigits 10 n).flatMap String.utf8EncodeChar := by
  rw [digits, Utf8.toList_ofString, Nat.repr, String.toList_ofList]

theorem isDigit_of_mem_digits {n : Nat} {b : UInt8} (h : b ∈ digits n) : isDigit b := by
  rw [digits_eq] at h
  exact (exists_digits (toDigits_isDigit n)).1 b h

theorem digits_values (n : Nat) :
    (digits n).map UInt8.toNat = (Nat.toDigits 10 n).map Char.toNat := by
  rw [digits_eq]
  exact (exists_digits (toDigits_isDigit n)).2

theorem digitsValue_digits (n : Nat) : digitsValue (digits n) = n := by
  have value : Nat.ofDigitChars 10 (Nat.toDigits 10 n) 0 = n :=
    Nat.ofDigitChars_toDigits (by omega) (by omega)
  have bytes (bs : List UInt8) (cs : List Char) (h : bs.map UInt8.toNat = cs.map Char.toNat)
      (init : Nat) : bs.foldl (fun n d => n * 10 + (d.toNat - 0x30)) init
        = Nat.ofDigitChars 10 cs init := by
    rw [Nat.ofDigitChars_eq_foldl]
    induction bs generalizing cs init with
    | nil =>
      obtain rfl : cs = [] := by simpa using h
      rfl
    | cons b bs ih =>
      cases cs with
      | nil => simp at h
      | cons c cs =>
        obtain ⟨head, tail⟩ := List.cons.inj h
        rw [List.foldl_cons, List.foldl_cons, ih cs tail, Nat.mul_comm init 10, head]
        rfl
  rw [digitsValue, bytes _ _ (digits_values n), value]

theorem digitChar_ne_zero : ∀ n < 10, 0 < n → n.digitChar ≠ '0' := by
  decide

/-- No number but zero starts with the digit zero. -/
theorem head?_toDigits {n : Nat} (h : 0 < n) : (Nat.toDigits 10 n).head? ≠ some '0' := by
  induction n using Nat.strongRecOn with
  | ind n ih =>
    rw [Nat.toDigits_eq_if (by omega)]
    split
    · next small =>
      rw [List.head?_cons]
      exact fun same => digitChar_ne_zero n small h (Option.some.inj same)
    · next large =>
      have front := ih (n / 10) (by omega) (by omega)
      rw [List.head?_append]
      cases first : (Nat.toDigits 10 (n / 10)).head? with
      | none => exact absurd (List.head?_eq_none_iff.mp first) Nat.toDigits_ne_nil
      | some c => rw [first] at front; exact front

theorem digits_ne_nil (n : Nat) : digits n ≠ [] := by
  intro none
  have := digits_values n
  rw [none, List.map_nil] at this
  exact Nat.toDigits_ne_nil (List.map_eq_nil_iff.mp this.symm)

theorem digits_leading_zero {n : Nat} (h : (digits n).head? = some 0x30) :
    (digits n).length = 1 := by
  have values := digits_values n
  have front : (Nat.toDigits 10 n).head? = some '0' := by
    have := congrArg List.head? values
    rw [List.head?_map, List.head?_map, h] at this
    obtain ⟨c, head, code⟩ := Option.map_eq_some_iff.mp this.symm
    rw [head, show c = '0' from Char.toNat_inj.mp code]
  have zero : n = 0 := Nat.eq_zero_of_not_pos fun pos => head?_toDigits pos front
  subst zero
  rfl

theorem Closed.not_isDigit {rest : List UInt8} (h : Closed rest) :
    ∀ b ∈ rest.head?, ¬ isDigit b := by
  intro b hb
  rcases h b hb with rfl | rfl | rfl <;> decide

theorem readDigits_append {ds rest : List UInt8} (nonempty : ds ≠ []) (h : ∀ b ∈ ds, isDigit b)
    (stop : ∀ b ∈ rest.head?, ¬ isDigit b) : readDigits (ds ++ rest) = some (ds, rest) := by
  have span : (ds ++ rest).span isDigit = (ds, rest) := by
    rw [List.span_eq_takeWhile_dropWhile, List.takeWhile_append_of_pos h,
      List.dropWhile_append_of_pos h]
    cases rest with
    | nil => simp
    | cons b bs => simp [stop b rfl]
  simp only [readDigits, span]
  rw [if_neg (by simpa using nonempty)]

/-- A number without its sign is read as it was written. -/
theorem readNumber_digits (n : Nat) (negative : Bool) {rest : List UInt8} (h : Closed rest)
    (value : negative → 0 < n) :
    readNumber negative (digits n ++ rest)
      = some (.int (if negative then -(n : Int) else n), rest) := by
  have leading : ¬ ((digits n).head? = some 0x30 && decide ((digits n).length > 1)) = true := by
    simp only [Bool.and_eq_true, decide_eq_true_eq, not_and]
    intro zero
    rw [digits_leading_zero zero]
    decide
  have fraction : readFraction rest = some (false, rest) := by
    cases rest with
    | nil => rfl
    | cons b bs => rcases h b rfl with rfl | rfl | rfl <;> rfl
  have exponent : readExponent rest = some (false, rest) := by
    cases rest with
    | nil => rfl
    | cons b bs => rcases h b rfl with rfl | rfl | rfl <;> rfl
  have sign : (negative && decide (n = 0)) = false := by
    cases negative with
    | false => rfl
    | true => simpa using Nat.ne_of_gt (value rfl)
  rw [readNumber, readDigits_append (digits_ne_nil n) (fun _ => isDigit_of_mem_digits)
    h.not_isDigit]
  simp only [Option.bind_eq_bind, Option.bind_some, if_neg leading, fraction, exponent,
    digitsValue_digits, sign, Bool.or_self, Bool.false_eq_true, if_false]
  cases negative <;> rfl

/-! ## Values -/

/-- The first byte of a value: no blank, no closing bracket, so that what reads on sees a value. -/
def Opens (b : UInt8) : Prop := isBlank b = false ∧ b ≠ 0x5D

instance (b : UInt8) : Decidable (Opens b) := inferInstanceAs (Decidable (_ ∧ _))

theorem skipBlanks_cons {b : UInt8} (h : isBlank b = false) (bs : List UInt8) :
    skipBlanks (b :: bs) = b :: bs := by
  rw [skipBlanks, h]
  rfl

theorem written_int_ofNat (n : Nat) : written (int n) = digits n := rfl

theorem written_int_negSucc (n : Nat) : written (int (.negSucc n)) = 0x2D :: digits (n + 1) := by
  have sign : toString (Int.negSucc n) = "-" ++ (n + 1).repr := rfl
  rw [written, sign, Utf8.toList_ofString_append]
  rfl

theorem opens_of_isDigit {b : UInt8} (h : isDigit b) : Opens b := by
  simp only [isDigit, Bool.and_eq_true, decide_eq_true_eq, UInt8.le_iff_toNat_le] at h
  have low : 48 ≤ b.toNat := h.1
  have high : b.toNat ≤ 57 := h.2
  have ne (c : UInt8) (hc : c.toNat < 48 ∨ 57 < c.toNat) : b ≠ c := by
    rintro rfl
    omega
  refine ⟨?_, ne 0x5D (by decide)⟩
  simp [isBlank, ne 0x20 (by decide), ne 0x0A (by decide), ne 0x09 (by decide), ne 0x0D (by decide)]

theorem exists_digits_eq_cons (n : Nat) : ∃ b bs, digits n = b :: bs ∧ isDigit b := by
  cases bytes : digits n with
  | nil => exact absurd bytes (digits_ne_nil n)
  | cons b bs => exact ⟨b, bs, rfl, isDigit_of_mem_digits (bytes ▸ List.mem_cons_self)⟩

/-- A value has a first byte, and it opens one. -/
theorem exists_written_eq_cons (v : Json) : ∃ b bs, written v = b :: bs ∧ Opens b := by
  cases v with
  | null => exact ⟨0x6E, _, rfl, by decide⟩
  | bool b => cases b <;> exact ⟨_, _, rfl, by decide⟩
  | int n =>
    cases n with
    | ofNat n =>
      obtain ⟨b, bs, bytes, digit⟩ := exists_digits_eq_cons n
      exact ⟨b, bs, (written_int_ofNat n).trans bytes, opens_of_isDigit digit⟩
    | negSucc n => exact ⟨0x2D, _, written_int_negSucc n, by decide⟩
  | decimal => exact ⟨0x30, _, rfl, by decide⟩
  | str s => exact ⟨0x22, _, rfl, by decide⟩
  | arr items =>
    cases items with
    | nil => exact ⟨0x5B, _, rfl, by decide⟩
    | cons v vs => exact ⟨0x5B, _, written_arr_cons v vs, by decide⟩
  | obj fields =>
    cases fields with
    | nil => exact ⟨0x7B, _, rfl, by decide⟩
    | cons f fs => exact ⟨0x7B, _, written_obj_cons f fs, by decide⟩

theorem length_written_pos (v : Json) : 0 < (written v).length := by
  obtain ⟨b, bs, bytes, -⟩ := exists_written_eq_cons v
  simp [bytes]

/-- What is written of a value is read as that value, and no further. -/
def ReadsBack (v : Json) : Prop :=
  ∀ n rest, 2 * (written v).length ≤ n → Closed rest →
    readValue n (written v ++ rest) = some (v, rest)

theorem closed_flatMap {α : Type} (items : List α) (f : α → List UInt8) {b : UInt8}
    (closing : b = 0x5D ∨ b = 0x7D) (rest : List UInt8) :
    Closed ((items.flatMap fun v => 0x2C :: f v) ++ b :: rest) := by
  intro c hc
  cases items with
  | nil =>
    obtain rfl : b = c := by simpa using hc
    exact .inr closing
  | cons v vs =>
    left
    simpa using hc.symm

theorem readItems_written {vs : List Json} {v : Json} (back : ∀ w ∈ v :: vs, ReadsBack w) {n : Nat}
    (acc : List Json) (rest : List UInt8)
    (bound : 2 * ((written v).length + (vs.flatMap fun w => 0x2C :: written w).length) + 1 ≤ n) :
    readItems n acc (written v ++ ((vs.flatMap fun w => 0x2C :: written w) ++ 0x5D :: rest))
      = some (.arr (acc.reverse ++ v :: vs), rest) := by
  induction vs generalizing v acc n with
  | nil =>
    obtain ⟨m, rfl⟩ : ∃ m, n = m + 1 := ⟨n - 1, by omega⟩
    have value := back v List.mem_cons_self m (0x5D :: rest) (by omega)
      (closed_flatMap ([] : List Json) written (.inl rfl) rest)
    rw [List.flatMap_nil, List.nil_append, readItems, value]
    simp [skipBlanks_cons (show isBlank 0x5D = false by decide)]
  | cons w ws ih =>
    rw [List.flatMap_cons, List.length_append, List.length_cons] at bound
    obtain ⟨m, rfl⟩ : ∃ m, n = m + 1 := ⟨n - 1, by omega⟩
    have value := back v List.mem_cons_self m _ (by omega)
      (closed_flatMap (w :: ws) written (.inl rfl) rest)
    have others := ih (fun u hu => back u (List.mem_cons_of_mem _ hu)) (n := m) (v :: acc)
      (by omega)
    rw [readItems, value]
    simp only [List.flatMap_cons, List.cons_append, List.append_assoc,
      skipBlanks_cons (show isBlank 0x2C = false by decide)]
    rw [others, List.reverse_cons, List.append_assoc, List.singleton_append]

/-- How the fields of an object are read on behind those that have been read, latest first. -/
def readOn (n : Nat) (fields : List (Option String × Json)) (rest : List UInt8) :
    Option (Json × List UInt8) :=
  match skipBlanks rest with
  | 0x2C :: bs => readFields n fields bs
  | 0x7D :: bs => some (.obj fields.reverse, bs)
  | _ => none

theorem readFields_field {f : Option String × Json} (known : f.1.isSome) (back : ReadsBack f.2)
    {m : Nat} {acc : List (Option String × Json)} {rest : List UInt8}
    (bound : 2 * (writtenField f).length ≤ m) (closed : Closed rest) :
    readFields (m + 1) acc (writtenField f ++ rest) = readOn m (f :: acc) rest := by
  obtain ⟨key, v⟩ := f
  obtain ⟨s, rfl⟩ := Option.isSome_iff_exists.mp known
  obtain ⟨bs, bytes, read⟩ := readString_quoted s (0x3A :: (written v ++ rest))
  simp only [writtenField, Option.getD_some, List.length_append, List.length_cons] at bound
  have value := back m rest (by simp only; omega) closed
  simp only [writtenField, Option.getD_some, bytes, List.cons_append, List.append_assoc, readFields,
    skipBlanks_cons (show isBlank 0x22 = false by decide), read,
    skipBlanks_cons (show isBlank 0x3A = false by decide), value]
  rfl

theorem readFields_written {fs : List (Option String × Json)} {f : Option String × Json}
    (known : ∀ g ∈ f :: fs, g.1.isSome) (back : ∀ g ∈ f :: fs, ReadsBack g.2) {n : Nat}
    (acc : List (Option String × Json)) (rest : List UInt8)
    (bound : 2 * ((writtenField f).length + (fs.flatMap fun g => 0x2C :: writtenField g).length) + 1
      ≤ n) :
    readFields n acc
        (writtenField f ++ ((fs.flatMap fun g => 0x2C :: writtenField g) ++ 0x7D :: rest))
      = some (.obj (acc.reverse ++ f :: fs), rest) := by
  induction fs generalizing f acc n with
  | nil =>
    obtain ⟨m, rfl⟩ : ∃ m, n = m + 1 := ⟨n - 1, by omega⟩
    rw [readFields_field (known f List.mem_cons_self) (back f List.mem_cons_self) (by omega)
      (closed_flatMap [] writtenField (.inr rfl) rest), List.flatMap_nil, List.nil_append,
      readOn, skipBlanks_cons (by decide)]
    simp
  | cons g gs ih =>
    rw [List.flatMap_cons, List.length_append, List.length_cons] at bound
    obtain ⟨m, rfl⟩ : ∃ m, n = m + 1 := ⟨n - 1, by omega⟩
    have others := ih (fun h hh => known h (List.mem_cons_of_mem _ hh))
      (fun h hh => back h (List.mem_cons_of_mem _ hh)) (n := m) (f :: acc) (by omega)
    rw [readFields_field (known f List.mem_cons_self) (back f List.mem_cons_self) (by omega)
      (closed_flatMap (g :: gs) writtenField (.inr rfl) rest), readOn]
    simp only [List.flatMap_cons, List.cons_append, List.append_assoc,
      skipBlanks_cons (show isBlank 0x2C = false by decide)]
    rw [others, List.reverse_cons, List.append_assoc, List.singleton_append]

theorem readValue_digits {k n : Nat} {rest : List UInt8} (closed : Closed rest) :
    readValue (n + 1) (digits k ++ rest) = some (.int k, rest) := by
  obtain ⟨b, bs, bytes, digit⟩ := exists_digits_eq_cons k
  have number := readNumber_digits k false closed (by simp)
  rw [bytes, List.cons_append] at number ⊢
  have ne (c : UInt8) (hc : isDigit c = false) : b ≠ c := by
    rintro rfl
    rw [digit] at hc
    cases hc
  rw [readValue, skipBlanks_cons (opens_of_isDigit digit).1]
  simp only [if_neg (ne 0x6E (by decide)), if_neg (ne 0x74 (by decide)),
    if_neg (ne 0x66 (by decide)), if_neg (ne 0x2D (by decide)), digit, if_true, number,
    Bool.false_eq_true, if_false]

theorem readValue_arr {b : UInt8} (opens : Opens b) (n : Nat) (bs : List UInt8) :
    readValue (n + 1) (0x5B :: b :: bs) = readItems n [] (b :: bs) := by
  have blank : isBlank 0x5B = false := by decide
  rw [readValue, skipBlanks_cons blank]
  simp only [skipBlanks_cons opens.1, show (0x5B : UInt8) ≠ 0x6E by decide,
    show (0x5B : UInt8) ≠ 0x74 by decide, show (0x5B : UInt8) ≠ 0x66 by decide,
    show (0x5B : UInt8) ≠ 0x2D by decide, show isDigit 0x5B = false by decide,
    show (0x5B : UInt8) ≠ 0x22 by decide, Bool.false_eq_true, if_false, if_true]
  split
  · next heq => exact absurd (List.cons.inj heq).1 opens.2
  · rfl

/-- A value is read as it was written. -/
theorem readsBack {v : Json} (h : Plain v) : ReadsBack v := by
  induction h with
  | null =>
    intro n rest bound _
    obtain ⟨m, rfl⟩ : ∃ m, n = m + 1 := ⟨n - 1, by have := length_written_pos null; omega⟩
    rfl
  | bool b =>
    intro n rest bound _
    obtain ⟨m, rfl⟩ : ∃ m, n = m + 1 := ⟨n - 1, by have := length_written_pos (bool b); omega⟩
    cases b <;> rfl
  | int k =>
    intro n rest bound closed
    obtain ⟨m, rfl⟩ : ∃ m, n = m + 1 := ⟨n - 1, by have := length_written_pos (int k); omega⟩
    cases k with
    | ofNat k => rw [Int.ofNat_eq_natCast, written_int_ofNat, readValue_digits closed]
    | negSucc k =>
      have number := readNumber_digits (k + 1) true closed (by simp)
      rw [written_int_negSucc, List.cons_append, readValue, skipBlanks_cons (by decide)]
      exact number
  | str s =>
    intro n rest bound _
    obtain ⟨m, rfl⟩ : ∃ m, n = m + 1 :=
      ⟨n - 1, by have := length_written_pos (str (some s)); omega⟩
    obtain ⟨bs, bytes, read⟩ := readString_quoted s rest
    rw [written, Option.getD_some, bytes, List.cons_append, readValue,
      skipBlanks_cons (by decide)]
    simp only [read, Option.map_some]
    rfl
  | @arr items plain ih =>
    intro n rest bound _
    cases items with
    | nil =>
      have bound : 2 * 2 ≤ n := bound
      obtain ⟨m, rfl⟩ : ∃ m, n = m + 1 := ⟨n - 1, by omega⟩
      rfl
    | cons v vs =>
      rw [written_arr_cons] at bound ⊢
      simp only [List.length_cons, List.length_append, List.length_nil] at bound
      obtain ⟨m, rfl⟩ : ∃ m, n = m + 1 := ⟨n - 1, by omega⟩
      have items := readItems_written ih (n := m) [] rest (by omega)
      obtain ⟨b, bs, bytes, opens⟩ := exists_written_eq_cons v
      simp only [bytes, List.cons_append, List.append_assoc, List.nil_append,
        List.reverse_nil] at items ⊢
      rw [readValue_arr opens, items]
  | @obj fields known plain ih =>
    intro n rest bound _
    cases fields with
    | nil =>
      have bound : 2 * 2 ≤ n := bound
      obtain ⟨m, rfl⟩ : ∃ m, n = m + 1 := ⟨n - 1, by omega⟩
      rfl
    | cons f fs =>
      rw [written_obj_cons] at bound ⊢
      simp only [List.length_cons, List.length_append, List.length_nil] at bound
      obtain ⟨m, rfl⟩ : ∃ m, n = m + 1 := ⟨n - 1, by omega⟩
      have fields := readFields_written known ih (n := m) [] rest (by omega)
      simp only [writtenField, quoted, List.cons_append, List.append_assoc, List.nil_append,
        List.reverse_nil] at fields ⊢
      rw [readValue, skipBlanks_cons (by decide)]
      exact fields

theorem size_render (v : Json) : (Text.ofString v.render).size = (written v).length := by
  rw [← toList_render, Array.length_toList]

/-- A whole text is read as the value it was written for. -/
theorem read?_render {v : Json} (h : Plain v) : read? (Text.ofString v.render) = some v := by
  have value := readsBack h (2 * (written v).length + 2) [] (by omega) (by simp [Closed])
  rw [List.append_nil] at value
  rw [read?, size_render, toList_render, value]
  rfl

end Glr.Json
