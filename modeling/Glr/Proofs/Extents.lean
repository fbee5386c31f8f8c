import Glr.Proofs.Spared

/-!
# Places in rows and columns

An offset of a text has a row and a column, those of the text before it (`Text.point`).  Extents are
added up by `advance` as lengths are by addition: the extent of two pieces of text side by side is
that of the first advanced by that of the second, and so the place behind a piece is the place
before it advanced by the extent of the piece.  `extentTo` takes the sum apart again, and of two
places the later one is the greater (`Text.point_le_iff`), so to compare rows and columns is to
compare offsets.

An edit maps rows and columns as it maps offsets (`TextEdit.Between.point_mapOffset`).
-/

namespace Glr

namespace Point

variable {p q r : Point}

theorem le_iff : p ≤ q ↔ p.row < q.row ∨ p.row = q.row ∧ p.column ≤ q.column := by
  show (compare p.row q.row).then (compare p.column q.column) ≠ .gt ↔ _
  rcases Nat.lt_trichotomy p.row q.row with above | same | below
  · rw [Nat.compare_eq_lt.mpr above]
    exact iff_of_true (fun h => nomatch h) (.inl above)
  · rw [same, Nat.compare_eq_eq.mpr rfl]
    show compare p.column q.column ≠ .gt ↔ _
    rw [Ne, Nat.compare_eq_gt]
    omega
  · rw [Nat.compare_eq_gt.mpr below]
    exact iff_of_false (fun h => h rfl) (by omega)

@[simp] theorem advance_zero (p : Point) : p.advance zero = p := rfl

@[simp] theorem zero_advance (p : Point) : zero.advance p = p := by
  obtain ⟨row, column⟩ := p
  simp only [advance, zero, Nat.zero_add]
  split
  · rfl
  · rw [show row = 0 by omega]

theorem eq_of (row : p.row = q.row) (column : p.column = q.column) : p = q := by
  cases p
  cases q
  exact congrArg₂ mk row column

theorem row_advance (p q : Point) : (p.advance q).row = p.row + q.row := by
  rw [advance]
  split
  · rfl
  · show p.row = p.row + q.row
    omega

theorem column_advance (p q : Point) :
    (p.advance q).column = if 0 < q.row then q.column else p.column + q.column := by
  rw [advance]
  split <;> rfl

theorem advance_assoc (p q r : Point) : (p.advance q).advance r = p.advance (q.advance r) := by
  refine eq_of ?_ ?_
  · simp only [row_advance, Nat.add_assoc]
  · simp only [column_advance, row_advance]
    (repeat' split) <;> omega

theorem advance_step (p q : Point) (byte : UInt8) :
    p.advance (q.step byte) = (p.advance q).step byte := by
  rw [step, step]
  split
  · refine eq_of ?_ ?_
    · rw [row_advance, row_advance, Nat.add_assoc]
    · rw [column_advance, if_pos (Nat.succ_pos _)]
  · refine eq_of ?_ ?_
    · rw [row_advance, row_advance]
    · simp only [column_advance]
      split
      · rfl
      · rfl

/-- What is advanced by is what is found on the way back. -/
theorem extentTo_advance (p q : Point) : p.extentTo (p.advance q) = q := by
  obtain ⟨row, column⟩ := q
  simp only [extentTo, advance]
  split
  · rw [if_pos (by simp only; omega), Nat.add_sub_cancel_left]
  · rw [if_neg (by simp only; omega), Nat.add_sub_cancel_left, show row = 0 by omega]

theorem le_advance (p q : Point) : p ≤ p.advance q := by
  rw [le_iff, row_advance, column_advance]
  split <;> omega

theorem not_advance_le (p : Point) (moved : q ≠ zero) : ¬ p.advance q ≤ p := by
  have some : 0 < q.row ∨ 0 < q.column := by
    rcases Nat.eq_zero_or_pos q.row with row | newline
    · refine .inr (Nat.pos_of_ne_zero fun column => moved (eq_of row column))
    · exact .inl newline
  rw [le_iff, row_advance, column_advance]
  split <;> omega

/-! ## Extents of texts -/

theorem foldl_step (p q : Point) (bytes : List UInt8) :
    bytes.foldl step (p.advance q) = p.advance (bytes.foldl step q) := by
  induction bytes generalizing q with
  | nil => rfl
  | cons byte bytes ih => rw [List.foldl_cons, List.foldl_cons, ← advance_step, ih]

theorem extentOf_eq (text : Text) : extentOf text = text.toList.foldl step zero :=
  (Array.foldl_toList ..).symm

@[simp] theorem extentOf_empty : extentOf #[] = zero := rfl

theorem extentOf_append (a b : Text) : extentOf (a ++ b) = (extentOf a).advance (extentOf b) := by
  rw [extentOf_eq, extentOf_eq, extentOf_eq, Array.toList_append, List.foldl_append, ← foldl_step,
    advance_zero]

/-- No row and no column is behind all bytes. -/
theorem extentOf_le (text : Text) : (extentOf text).row + (extentOf text).column ≤ text.size := by
  have walk (bytes : List UInt8) (p : Point) :
      (bytes.foldl step p).row + (bytes.foldl step p).column ≤ p.row + p.column + bytes.length := by
    induction bytes generalizing p with
    | nil => exact Nat.le_refl _
    | cons byte bytes ih =>
      have one : (p.step byte).row + (p.step byte).column ≤ p.row + p.column + 1 := by
        rw [step]
        split
        · simp only
          omega
        · exact Nat.le_refl _
      have := ih (p.step byte)
      rw [List.foldl_cons, List.length_cons]
      omega
  have := walk text.toList zero
  rw [← extentOf_eq, Array.length_toList] at this
  simpa [zero] using this

theorem extentOf_inRange {text : Text} (small : text.size ≤ Size.largest) :
    (extentOf text).inRange = true := by
  have := extentOf_le text
  rw [inRange, Bool.and_eq_true, decide_eq_true_eq, decide_eq_true_eq]
  omega

theorem extentOf_ne_zero {text : Text} (some : 0 < text.size) : extentOf text ≠ zero := by
  have stepped (p : Point) (byte : UInt8) : p.step byte ≠ zero := by
    rw [step]
    split
    · exact fun h => by simp [zero] at h
    · exact fun h => by simp [zero] at h
  rw [extentOf_eq]
  rcases text.toList.eq_nil_or_concat with none | ⟨bytes, byte, last⟩
  · rw [← Array.length_toList, none] at some
    exact absurd some (by decide)
  · rw [last, List.concat_eq_append, List.foldl_append]
    exact stepped _ _

end Point

namespace Text

/-- The row and the column of an offset. -/
def point (text : Text) (offset : Nat) : Point := Point.extentOf (text.extract 0 offset)

variable {text : Text} {i j k : Nat}

theorem extentOf_extract (text : Text) (hij : i ≤ j) (hjk : j ≤ k) :
    Point.extentOf (text.extract i k) =
      (Point.extentOf (text.extract i j)).advance (Point.extentOf (text.extract j k)) := by
  rw [← Point.extentOf_append, Array.extract_append_extract, Nat.min_eq_left hij,
    Nat.max_eq_right hjk]

@[simp] theorem point_zero (text : Text) : text.point 0 = Point.zero := by
  rw [point, Array.extract_zero, Point.extentOf_empty]

theorem point_size (text : Text) : text.point text.size = Point.extentOf text := by
  rw [point, Array.extract_size]

theorem point_advance (text : Text) (h : i ≤ j) :
    (text.point i).advance (Point.extentOf (text.extract i j)) = text.point j :=
  (extentOf_extract text (Nat.zero_le i) h).symm

theorem extentTo_point (text : Text) (h : i ≤ j) :
    (text.point i).extentTo (text.point j) = Point.extentOf (text.extract i j) := by
  rw [← point_advance text h, Point.extentTo_advance]

/-- Places are ordered as their offsets are. -/
theorem point_le_iff (hi : i ≤ text.size) : text.point i ≤ text.point j ↔ i ≤ j := by
  constructor
  · intro le
    refine Nat.le_of_not_lt fun before => ?_
    rw [← point_advance text (Nat.le_of_lt before)] at le
    refine Point.not_advance_le _ (Point.extentOf_ne_zero ?_) le
    rw [Array.size_extract]
    omega
  · intro le
    rw [← point_advance text le]
    exact Point.le_advance _ _

theorem point_inRange (small : text.size ≤ Size.largest) (offset : Nat) :
    (text.point offset).inRange = true := by
  refine Point.extentOf_inRange ?_
  rw [Array.size_extract]
  omega

end Text

namespace TextEdit

/-! ## From one text to another -/

/-- The edits that are made of texts, and the text that each turns a given one into. -/
inductive Turns (old : Text) : TextEdit → Text → Prop where
  | replaced (start stop : Nat) (inserted : Text) :
      Turns old (replace old start stop inserted) (splice old start stop inserted)
  | compared (new : Text) : Turns old (ofTexts old new) new

/-- An edit tells of two texts that they are the same before it and behind it, and where in them it
starts and ends. -/
structure Between (e : TextEdit) (old new : Text) : Prop where
  start_le_old : e.startByte ≤ e.oldEndByte
  start_le_new : e.startByte ≤ e.newEndByte
  old_le_size : e.oldEndByte ≤ old.size
  size : new.size + e.oldEndByte = old.size + e.newEndByte
  before : ∀ i < e.startByte, new[i]? = old[i]?
  behind : ∀ i, new[e.newEndByte + i]? = old[e.oldEndByte + i]?
  startPoint : e.startPoint = old.point e.startByte
  oldEndPoint : e.oldEndPoint = old.point e.oldEndByte
  newEndPoint : e.newEndPoint = new.point e.newEndByte

theorem extract_splice (old : Text) (start stop : Nat) (inserted : Text) :
    (splice old start stop inserted).extract (replace old start stop inserted).startByte
      (replace old start stop inserted).newEndByte = inserted := by
  show (splice old start stop inserted).extract (min start old.size)
    (min start old.size + inserted.size) = inserted
  have front : (old.extract 0 (min start old.size)).size = min start old.size := by
    rw [Array.size_extract]
    omega
  rw [splice, Array.extract_append, Array.extract_append, front, Nat.sub_self,
    Nat.add_sub_cancel_left, Array.extract_size, Array.size_append, front, Nat.sub_self,
    Array.extract_zero, Array.append_empty,
    Array.extract_empty_of_size_le_start (Nat.le_of_eq front), Array.empty_append]

theorem between_replace (old : Text) (start stop : Nat) (inserted : Text) :
    (replace old start stop inserted).Between old (splice old start stop inserted) where
  start_le_old := start_le_oldEnd old start stop inserted
  start_le_new := start_le_newEnd old start stop inserted
  old_le_size := oldEnd_le_size old start stop inserted
  size := by
    have := size_splice old start stop inserted
    have := oldEnd_le_size old start stop inserted
    omega
  before _ h := getElem?_splice_before h
  behind := getElem?_splice_behind
  startPoint := rfl
  oldEndPoint := Text.point_advance old (start_le_oldEnd old start stop inserted)
  newEndPoint := by
    have front := (agree_before (o := 0) (Nat.le_refl _)).extract_eq
      (Nat.le_trans (start_le_oldEnd old start stop inserted)
        (oldEnd_le_size old start stop inserted)) (Nat.le_refl _)
    rw [← Text.point_advance _ (start_le_newEnd old start stop inserted), extract_splice]
    rw [Text.point, ← Nat.zero_add (startByte _), ← Nat.sub_zero (startByte _), front]
    rfl

theorem commonLength_le : ∀ as bs : List UInt8,
    commonLength as bs ≤ as.length ∧ commonLength as bs ≤ bs.length
  | [], _ => ⟨Nat.zero_le _, Nat.zero_le _⟩
  | _ :: _, [] => ⟨Nat.zero_le _, Nat.zero_le _⟩
  | a :: as, b :: bs => by
    rw [commonLength]
    have := commonLength_le as bs
    split
    · simp only [List.length_cons]
      omega
    · exact ⟨Nat.zero_le _, Nat.zero_le _⟩

theorem take_commonLength : ∀ as bs : List UInt8,
    as.take (commonLength as bs) = bs.take (commonLength as bs)
  | [], _ => by simp [commonLength]
  | _ :: _, [] => by simp [commonLength]
  | a :: as, b :: bs => by
    rw [commonLength]
    split
    · next same => rw [same, List.take_succ_cons, List.take_succ_cons, take_commonLength]
    · rfl

/-- What two texts share at their ends, behind what they share in front. -/
theorem extract_common {old new : Text} {head tail : Nat}
    (hhead : head = commonLength old.toList new.toList)
    (htail : tail = commonLength (old.toList.drop head).reverse (new.toList.drop head).reverse) :
    head + tail ≤ old.size ∧ head + tail ≤ new.size ∧
      old.extract 0 head = new.extract 0 head ∧
      old.extract (old.size - tail) old.size = new.extract (new.size - tail) new.size := by
  have front := commonLength_le old.toList new.toList
  have back := commonLength_le (old.toList.drop head).reverse (new.toList.drop head).reverse
  have same := take_commonLength old.toList new.toList
  have same' := take_commonLength (old.toList.drop head).reverse (new.toList.drop head).reverse
  rw [← hhead] at front same
  rw [← htail] at back same'
  simp only [List.length_reverse, List.length_drop, Array.length_toList] at front back
  rw [List.take_reverse, List.take_reverse, List.reverse_inj, List.drop_drop, List.drop_drop,
    List.length_drop, List.length_drop, Array.length_toList, Array.length_toList,
    show head + (old.size - head - tail) = old.size - tail by omega,
    show head + (new.size - head - tail) = new.size - tail by omega] at same'
  refine ⟨by omega, by omega, Array.ext' ?_, Array.ext' ?_⟩
  · simpa only [Array.toList_extract, List.extract_eq_take_drop, List.drop_zero, Nat.sub_zero]
      using same
  · rw [Array.toList_extract, Array.toList_extract, List.extract_eq_take_drop,
      List.extract_eq_take_drop, same', List.take_of_length_le, List.take_of_length_le]
    · exact Nat.le_of_eq (by rw [List.length_drop, Array.length_toList])
    · rw [List.length_drop, Array.length_toList]
      omega

theorem splice_ofTexts (old new : Text) : ∃ start stop inserted,
    ofTexts old new = replace old start stop inserted ∧ splice old start stop inserted = new := by
  refine ⟨_, _, _, rfl, ?_⟩
  generalize hhead : commonLength old.toList new.toList = head
  generalize htail :
    commonLength (old.toList.drop head).reverse (new.toList.drop head).reverse = tail
  obtain ⟨inOld, inNew, front, back⟩ := extract_common hhead.symm htail.symm
  have first : min head old.size = head := by omega
  have last : min (max (old.size - tail) head) old.size = old.size - tail := by omega
  rw [splice, first, last, front, back, Array.extract_append_extract,
    show max head (new.size - tail) = new.size - tail by omega, Array.extract_append_extract,
    show min (min 0 head) (new.size - tail) = 0 by omega,
    show max (new.size - tail) new.size = new.size by omega, Array.extract_size]

theorem Turns.between {old new : Text} {e : TextEdit} (h : e.Turns old new) :
    e.Between old new := by
  cases h with
  | replaced start stop inserted => exact between_replace old start stop inserted
  | compared =>
    obtain ⟨start, stop, inserted, same, result⟩ := splice_ofTexts old new
    rw [same, ← result]
    exact between_replace old start stop inserted

namespace Between

variable {old new : Text} {e : TextEdit} {i j : Nat} (h : e.Between old new)

include h

theorem agree_before (le : j ≤ e.startByte) : Text.Agree old i new i j := fun _ hk =>
  h.before _ (Nat.lt_of_lt_of_le hk le)

theorem agree_behind (le : e.oldEndByte ≤ i) (last : Nat) :
    Text.Agree old i new (i - e.oldEndByte + e.newEndByte) last := by
  intro k _
  have := h.behind (i - e.oldEndByte + k)
  rw [show i - e.oldEndByte + e.newEndByte + k = e.newEndByte + (i - e.oldEndByte + k) by omega,
    this, show e.oldEndByte + (i - e.oldEndByte + k) = i + k by omega]

theorem point_before (le : i ≤ e.startByte) : new.point i = old.point i := by
  have same := (h.agree_before (i := 0) le).extract_eq
    (Nat.le_trans le (Nat.le_trans h.start_le_old h.old_le_size)) (Nat.le_refl i)
  rw [Nat.zero_add, Nat.sub_zero] at same
  rw [Text.point, Text.point, same]

theorem point_behind (le : e.oldEndByte ≤ i) (inside : i ≤ old.size) :
    new.point (i - e.oldEndByte + e.newEndByte) =
      e.newEndPoint.advance (e.oldEndPoint.extentTo (old.point i)) := by
  have same := (h.agree_behind (Nat.le_refl _) i).extract_eq inside (Nat.le_refl i)
  rw [Nat.sub_self, Nat.zero_add] at same
  rw [h.oldEndPoint, Text.extentTo_point _ le, h.newEndPoint, ← same, Nat.add_comm,
    Text.point_advance _ (Nat.le_add_right _ _)]

theorem mapOffset_le (le : i ≤ old.size) : (e.mapOffset i).value ≤ new.size := by
  obtain ⟨-, new, inside, size⟩ := h
  rw [value_mapOffset]
  (repeat' split) <;> omega

/-- Rows and columns are mapped as offsets are. -/
theorem point_mapOffset (le : i ≤ old.size) :
    (e.mapPoint (old.point i)).value = new.point (e.mapOffset i).value := by
  rw [mapPoint, value_mapOffset, h.startPoint, h.oldEndPoint]
  simp only [Text.point_le_iff le, Text.point_le_iff h.old_le_size]
  split
  · next before => exact (h.point_before before).symm
  · split
    · next behind =>
      rw [Point.value_advanceChecked, ← h.oldEndPoint, h.point_behind behind le]
    · exact h.newEndPoint

/-- What an edit does not damage has its bytes where the edit moves it. -/
theorem agree_mapOffset {lookahead : Nat} (le : i ≤ j)
    (undamaged : e.damages i j lookahead = false) :
    Text.Agree old i new (e.mapOffset i).value j := by
  rw [value_mapOffset]
  rcases damages_eq_false_iff.mp undamaged with behind | before
  · have := h.start_le_old
    rw [if_neg (by omega), if_pos (by omega)]
    exact h.agree_behind (by omega) j
  · rw [if_pos (by omega)]
    exact h.agree_before (by omega)

/-- The text between the ends of an edit is what stands in the place of the old one. -/
theorem pieces_eq : old.extract 0 e.startByte ++ new.extract e.startByte e.newEndByte ++
    old.extract e.oldEndByte old.size = new := by
  have inside := h.old_le_size
  have size := h.size
  have front := (h.agree_before (i := 0) (Nat.le_refl _)).extract_eq
    (Nat.le_trans h.start_le_old inside) (Nat.le_refl _)
  have back := (h.agree_behind (Nat.le_refl _) old.size).extract_eq (Nat.le_refl _) (Nat.le_refl _)
  rw [Nat.zero_add, Nat.sub_zero] at front
  rw [Nat.sub_self, Nat.zero_add, show e.newEndByte + (old.size - e.oldEndByte) = new.size by omega]
    at back
  rw [← front, ← back, Array.extract_append_extract, Nat.zero_min,
    Nat.max_eq_right h.start_le_new, Array.extract_append_extract, Nat.zero_min,
    Nat.max_eq_right (by omega), Array.extract_size]

end Between

end TextEdit

end Glr
