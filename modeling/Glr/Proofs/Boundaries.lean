import Glr.Proofs.Matching

/-!
# Places between characters

A text is valid if its bytes are those of some characters (`Utf8.Valid`), which is what
`Utf8.decode?` finds out.  No character begins another one, so bytes that are valid can be taken
off the front of others that are, and leave what is valid.

So the places between the characters of a text are those with valid bytes on both sides
(`Text.Boundary`).  From one of them another is reached in two ways: over bytes that are valid,
which is how patterns match, and by the width that the next byte announces, which is how a cursor
moves and how unknown text is skipped.
-/

namespace Glr

namespace Utf8

variable {b : UInt8} {u v w bs : List UInt8} {c : Char}

/-! ## Widths -/

/-- A character that is read in part lacks as many bytes as it owes. -/
theorem Lead.Completes.length_eq : ∀ {w : List UInt8} {l : Lead} {code : Nat},
    l.Completes w code → w.length = l.owed := by
  intro w
  induction w with
  | nil => exact fun h => h.1.symm
  | cons b w ih =>
    rintro ⟨owed, low, high, bits⟩ code completes
    cases owed with
    | zero => exact absurd (completes_zero.mp completes).1 (List.cons_ne_nil b w)
    | succ owed =>
      obtain ⟨_, _, same, -, -, rest⟩ := completes_succ.mp completes
      cases same
      rw [List.length_cons, ih rest]

/-- A leading byte announces itself and the bytes that it owes. -/
theorem width_eq_owed_succ {l : Lead} (begins : Lead.ofByte? b = some l) :
    width b = l.owed + 1 := by
  rw [width]
  simp only [UInt8.lt_iff_toNat_lt, UInt8.reduceToNat]
  rcases ofByte?_cases begins with ⟨below, rfl⟩ | ⟨above, below, rfl⟩ |
    ⟨_, _, above, below, -, -, -, -, rfl⟩ | ⟨_, _, above, below, -, -, -, -, rfl⟩
  · rw [if_pos below]
  · rw [if_neg (by omega), if_neg (by omega), if_pos below]
  · rw [if_neg (by omega), if_neg (by omega), if_neg (by omega), if_pos below]
  · rw [if_neg (by omega), if_neg (by omega), if_neg (by omega), if_neg (by omega),
      if_pos (by omega)]

/-- The first byte of a character tells how long it is. -/
theorem width_of_encodeChar (bytes : String.utf8EncodeChar c = b :: w) :
    width b = (b :: w).length := by
  obtain ⟨l, begins, completes⟩ := encodeChar_eq_cons_iff.mp bytes
  rw [width_eq_owed_succ begins, List.length_cons, completes.length_eq]

/-! ## Valid bytes -/

/-- Bytes that are those of some characters. -/
def Valid (bytes : List UInt8) : Prop := ∃ cs : List Char, bytes = cs.flatMap String.utf8EncodeChar

theorem valid_nil : Valid [] := ⟨[], rfl⟩

theorem valid_encodeChar (c : Char) : Valid (String.utf8EncodeChar c) :=
  ⟨[c], (List.flatMap_singleton String.utf8EncodeChar c).symm⟩

theorem Valid.append (hu : Valid u) (hv : Valid v) : Valid (u ++ v) := by
  obtain ⟨cs, rfl⟩ := hu
  obtain ⟨ds, rfl⟩ := hv
  exact ⟨cs ++ ds, List.flatMap_append.symm⟩

/-- Valid bytes start with a character, unless there are none. -/
theorem Valid.exists_first (h : Valid (b :: bs)) :
    ∃ (c : Char) (w rest : List UInt8), bs = w ++ rest ∧ String.utf8EncodeChar c = b :: w ∧
      Valid rest := by
  obtain ⟨cs, bytes⟩ := h
  cases cs with
  | nil => cases bytes
  | cons c cs =>
    obtain ⟨b', w, first, -⟩ := exists_piece_encodeChar c []
    rw [List.flatMap_cons, first, List.cons_append] at bytes
    obtain ⟨rfl, rfl⟩ := List.cons.inj bytes
    exact ⟨c, w, _, rfl, first, cs, rfl⟩

/-- Behind one character of valid bytes there are valid bytes. -/
theorem Valid.of_encodeChar_append (h : Valid (String.utf8EncodeChar c ++ v)) : Valid v := by
  obtain ⟨ds, bytes⟩ := h
  have read := congrArg pieces bytes
  rw [pieces_encodeChar_append, pieces_encode] at read
  cases ds with
  | nil => cases read
  | cons d ds =>
    obtain rfl : c = d := Option.some.inj (List.cons.inj read).1
    rw [List.flatMap_cons] at bytes
    exact ⟨ds, List.append_cancel_left bytes⟩

theorem Valid.of_append (hu : Valid u) (h : Valid (u ++ v)) : Valid v := by
  obtain ⟨cs, rfl⟩ := hu
  induction cs with
  | nil => exact h
  | cons c cs ih =>
    rw [List.flatMap_cons, List.append_assoc] at h
    exact ih h.of_encodeChar_append

/-- Bytes that are read as characters only are valid. -/
theorem valid_of_pieces {cs : List Char} (h : pieces bs = cs.map some) : Valid bs := by
  fun_induction pieces bs generalizing cs with
  | case1 => exact valid_nil
  | case2 b rest c n read ih =>
    obtain ⟨w, v, rfl, rfl, bytes⟩ := encodeChar_of_piece read
    cases cs with
    | nil => cases h
    | cons d cs =>
      have later := ih (List.cons.inj h).2
      rw [Nat.add_sub_cancel, List.drop_left] at later
      rw [← List.cons_append, ← bytes]
      exact (valid_encodeChar c).append later
  | case3 b rest n read ih =>
    cases cs with
    | nil => cases h
    | cons d cs => exact absurd (List.cons.inj h).1 (Option.some_ne_none d).symm

/-- A text can be decoded if its bytes are valid, and only then. -/
theorem isSome_decode?_iff {text : Text} : (decode? text).isSome = true ↔ Valid text.toList := by
  constructor
  · intro decoded
    obtain ⟨s, h⟩ := Option.isSome_iff_exists.mp decoded
    rw [decode?, Option.map_eq_some_iff] at h
    obtain ⟨cs, read, -⟩ := h
    exact valid_of_pieces (mapM_id_eq_some_iff.mp read)
  · rintro ⟨cs, bytes⟩
    have same : text = Text.ofString (String.ofList cs) := by
      rw [← Array.toList_inj, bytes, toList_ofString, String.toList_ofList]
    rw [same, decode?_ofString]
    rfl

end Utf8

/-! ## Boundaries -/

namespace Text

/-- A place of a text between two of its characters, at its start or at its end. -/
structure Boundary (text : Text) (o : Nat) : Prop where
  inside : o ≤ text.size
  before : Utf8.Valid (text.extract 0 o).toList
  behind : Utf8.Valid (text.extract o text.size).toList

variable {text : Text} {o o' : Nat}

theorem extract_append_toList {i j k : Nat} (hij : i ≤ j) (hjk : j ≤ k) :
    (text.extract i j).toList ++ (text.extract j k).toList = (text.extract i k).toList := by
  rw [← Array.toList_append, Array.extract_append_extract, Nat.min_eq_left hij,
    Nat.max_eq_right hjk]

theorem boundary_zero (valid : Utf8.Valid text.toList) : text.Boundary 0 where
  inside := Nat.zero_le _
  before := by
    rw [extract_self]
    exact Utf8.valid_nil
  behind := by rwa [Array.extract_size]

theorem boundary_size (valid : Utf8.Valid text.toList) : text.Boundary text.size where
  inside := Nat.le_refl _
  before := by rwa [Array.extract_size]
  behind := by
    rw [extract_self]
    exact Utf8.valid_nil

/-- Behind valid bytes from a boundary on there is another one. -/
theorem Boundary.behind_valid (h : text.Boundary o) (le : o ≤ o') (inside : o' ≤ text.size)
    (valid : Utf8.Valid (text.extract o o').toList) : text.Boundary o' where
  inside := inside
  before := by
    rw [← extract_append_toList (Nat.zero_le o) le]
    exact h.before.append valid
  behind := by
    have rest := h.behind
    rw [← extract_append_toList le inside] at rest
    exact valid.of_append rest

/-- The bytes between two boundaries are valid. -/
theorem Boundary.valid_between (h : text.Boundary o) (h' : text.Boundary o') (le : o ≤ o') :
    Utf8.Valid (text.extract o o').toList := by
  have whole := h'.before
  rw [← extract_append_toList (Nat.zero_le o) le] at whole
  exact h.before.of_append whole

/-- The next character ends inside of the text, and at a boundary. -/
theorem Boundary.next (h : text.Boundary o) (lt : o < text.size) :
    text.Boundary (o + Utf8.width text[o]) := by
  have rest := h.behind
  rw [extract_cons lt lt] at rest
  obtain ⟨c, w, v, behind, bytes, -⟩ := rest.exists_first
  have width := Utf8.width_of_encodeChar bytes
  have all : (text.extract o text.size).toList = (text[o] :: w) ++ v := by
    rw [extract_cons lt lt, behind, List.cons_append]
  have long := congrArg List.length all
  rw [List.length_append, ← width, Array.length_toList, Array.size_extract] at long
  have inside : o + Utf8.width text[o] ≤ text.size := by omega
  rw [← extract_append_toList (Nat.le_add_right o _) inside] at all
  have first := (List.append_inj all (by
    rw [← width, Array.length_toList, Array.size_extract]
    omega)).1
  refine h.behind_valid (Nat.le_add_right o _) inside ?_
  rw [first, ← bytes]
  exact Utf8.valid_encodeChar c

end Text

end Glr
