import Glr.Proofs.Locality
import Glr.Proofs.Tokens

/-!
# What an edit leaves alone

An edit of a text moves what is behind it and nothing else, and an edit of a tree is made to match:
every node of the edited tree that is not damaged stands in a subtree of the old tree that was kept
whole, and that now stands where the edit has moved its text to (`Green.Measured.spared`).

The second is an induction over the tree that goes through the leaves from left to right.  Its
invariant is that what has been edited ends where the boundary before the next leaf lies after the
edit.  A boundary lies where the edit moves it, except that the first leaf that ends with the
document takes what is added there, and every boundary behind it is moved along.
-/

namespace Glr

/-! ## Texts -/

namespace TextEdit

section Bounds

variable (old : Text) (start stop : Nat) (inserted : Text)

theorem start_le_oldEnd : (replace old start stop inserted).startByte ≤
    (replace old start stop inserted).oldEndByte := by
  show min start old.size ≤ min (max stop (min start old.size)) old.size
  omega

theorem start_le_newEnd : (replace old start stop inserted).startByte ≤
    (replace old start stop inserted).newEndByte := Nat.le_add_right _ _

theorem oldEnd_le_size : (replace old start stop inserted).oldEndByte ≤ old.size :=
  Nat.min_le_right _ _

theorem size_splice : (splice old start stop inserted).size =
    (replace old start stop inserted).newEndByte +
      (old.size - (replace old start stop inserted).oldEndByte) := by
  show (splice old start stop inserted).size = min start old.size + inserted.size +
    (old.size - min (max stop (min start old.size)) old.size)
  rw [splice]
  simp only [Array.size_append, Array.size_extract]
  omega

end Bounds

variable {old inserted : Text} {start stop : Nat}

theorem getElem?_splice_before {i : Nat} (h : i < (replace old start stop inserted).startByte) :
    (splice old start stop inserted)[i]? = old[i]? := by
  have before : i < min start old.size := h
  rw [splice]
  rw [Array.getElem?_append_left (by simp only [Array.size_append, Array.size_extract]; omega),
    Array.getElem?_append_left (by simp only [Array.size_extract]; omega),
    Array.getElem?_extract, if_pos (by omega), Nat.zero_add]

theorem getElem?_splice_behind (i : Nat) :
    (splice old start stop inserted)[(replace old start stop inserted).newEndByte + i]? =
      old[(replace old start stop inserted).oldEndByte + i]? := by
  show (splice old start stop inserted)[min start old.size + inserted.size + i]? =
    old[min (max stop (min start old.size)) old.size + i]?
  rw [splice]
  rw [Array.getElem?_append_right (by simp only [Array.size_append, Array.size_extract]; omega)]
  simp only [Array.size_append, Array.size_extract]
  rw [Array.getElem?_extract]
  split
  · congr 1
    omega
  · exact (Array.getElem?_eq_none (by omega)).symm

theorem agree_before {o last : Nat} (h : last ≤ (replace old start stop inserted).startByte) :
    Text.Agree old o (splice old start stop inserted) o last := fun _ hk =>
  getElem?_splice_before (Nat.lt_of_lt_of_le hk h)

/-- Behind an edit the text is as it was, further on or further back. -/
theorem agree_behind {o o' : Nat} (behind : (replace old start stop inserted).oldEndByte ≤ o)
    (moved : o' + (replace old start stop inserted).oldEndByte =
      o + (replace old start stop inserted).newEndByte) (last : Nat) :
    Text.Agree old o (splice old start stop inserted) o' last := by
  intro k _
  obtain ⟨j, rfl⟩ := Nat.exists_eq_add_of_le behind
  obtain rfl : o' = (replace old start stop inserted).newEndByte + j := by omega
  rw [Nat.add_assoc, Nat.add_assoc]
  exact getElem?_splice_behind (j + k)

/-- What an edit leaves alone is behind it, or it and all that was looked at for it is before. -/
theorem damages_eq_false_iff {e : TextEdit} {start stop lookahead : Nat} :
    e.damages start stop lookahead = false ↔
      e.oldEndByte < start ∨ stop + lookahead < e.startByte := by
  rw [damages, Bool.and_eq_false_iff, decide_eq_false_iff_not, decide_eq_false_iff_not,
    Nat.not_le, ge_iff_le, Nat.not_le]

theorem value_mapOffset (e : TextEdit) (offset : Nat) : (e.mapOffset offset).value =
    if offset ≤ e.startByte then offset
    else if e.oldEndByte ≤ offset then offset - e.oldEndByte + e.newEndByte
    else e.newEndByte := by
  rw [mapOffset]
  split
  · rfl
  · split
    · rfl
    · rfl

end TextEdit

/-! ## Boundaries -/

namespace DocumentEdit

variable {d : DocumentEdit}

/-- Where a boundary between leaves lies after the edit. -/
def boundary (d : DocumentEdit) (appended : Bool) (offset : Nat) : Nat :=
  if appended && offset == d.stop then d.stop + d.edit.newEndByte - d.edit.oldEndByte
  else (d.edit.mapOffset offset).value

theorem leafStart_fst (d : DocumentEdit) (appended : Bool) (offset : Nat) (point : Point) :
    (d.leafStart appended offset point).value.1 = d.boundary appended offset := by
  rw [leafStart, boundary]
  split
  · rfl
  · rfl

theorem leafStop_fst (d : DocumentEdit) (offset : Nat) (point : Point) :
    (d.leafStop offset point).value.1 = d.boundary true offset := by
  rw [leafStop, boundary, Bool.true_and]
  split
  · rfl
  · rfl

/-- Behind a leaf, the text added at the end is taken if the leaf ends there. -/
theorem boundary_taken (d : DocumentEdit) (appended : Bool) (offset : Nat) :
    d.boundary (appended || offset == d.stop) offset = d.boundary true offset := by
  rw [boundary, boundary]
  cases offset == d.stop <;> simp

theorem boundary_start (d : DocumentEdit) : d.boundary false 0 = 0 := by
  rw [boundary, Bool.false_and, if_neg Bool.false_ne_true, TextEdit.value_mapOffset,
    if_pos (Nat.zero_le _)]

/-- What is edited is in the document, up to a given place as well. -/
structure Within (d : DocumentEdit) (last : Nat) : Prop where
  start_le_old : d.edit.startByte ≤ d.edit.oldEndByte
  start_le_new : d.edit.startByte ≤ d.edit.newEndByte
  old_le_stop : d.edit.oldEndByte ≤ d.stop
  le_stop : last ≤ d.stop

theorem Within.of_le {last last' : Nat} (h : d.Within last) (le : last' ≤ last) :
    d.Within last' :=
  ⟨h.start_le_old, h.start_le_new, h.old_le_stop, Nat.le_trans le h.le_stop⟩

/-- The boundaries of a leaf keep their order. -/
theorem boundary_le {start stop : Nat} (within : d.Within stop) (le : start ≤ stop)
    (appended : Bool) : d.boundary appended start ≤ d.boundary true stop := by
  obtain ⟨old, new, inside, last⟩ := within
  simp only [boundary, TextEdit.value_mapOffset, Bool.true_and, Bool.and_eq_true, beq_iff_eq]
  (repeat' split) <;> omega

/-- A node that the edit does not damage is moved as a whole. -/
theorem boundary_of_undamaged {start stop lookahead : Nat} (within : d.Within stop)
    (le : start ≤ stop) (undamaged : d.edit.damages start stop lookahead = false)
    (appended : Bool) :
    d.boundary appended start = (d.edit.mapOffset start).value ∧
      d.boundary appended stop = d.boundary appended start + (stop - start) := by
  obtain ⟨old, new, inside, last⟩ := within
  rw [TextEdit.damages_eq_false_iff] at undamaged
  simp only [boundary, TextEdit.value_mapOffset, Bool.and_eq_true, beq_iff_eq]
  refine ⟨?_, ?_⟩
  · (repeat' split) <;> omega
  · (repeat' split) <;> omega

end DocumentEdit

/-! ## Trees -/

namespace Green

/-- A node of edited trees stands in a tree that was kept whole: that stood at an offset of the old
trees, was not damaged there, and stands now where the edit moves its offset to. -/
inductive Spared (d : DocumentEdit) (appended : Bool) (start : Nat) (gs gs' : List Green)
    (o : Nat) (m : Green) : Prop where
  | intro {n : Green} {b q i : Nat} (before : HoldsIn gs b n) (after : HoldsIn gs' q n)
      (inside : n.Holds i m) (place : o = q + i)
      (undamaged : d.edit.damages (start + b) (start + b + n.length) n.lookahead = false)
      (moved : d.Within (start + spread gs) →
        d.boundary appended start + q = (d.edit.mapOffset (start + b)).value)

/-- How trees side by side come out of an edit. -/
structure Revised (d : DocumentEdit) (appended : Bool) (start : Nat) (gs gs' : List Green)
    (appended' : Bool) : Prop where
  length : d.Within (start + spread gs) →
    d.boundary appended' (start + spread gs) = d.boundary appended start + spread gs'
  spared : ∀ {o : Nat} {m : Green}, HoldsIn gs' o m → m.isDamaged = false →
    Spared d appended start gs gs' o m

namespace Revised

variable {d : DocumentEdit} {appended appended' appended'' : Bool} {start : Nat} {g g' : Green}
  {gs gs' : List Green}

theorem nil : Revised d appended start [] [] appended where
  length _ := rfl
  spared held := nomatch held

theorem cons (head : Revised d appended start [g] [g'] appended')
    (tail : Revised d appended' (start + g.length) gs gs' appended'') :
    Revised d appended start (g :: gs) (g' :: gs') appended'' where
  length within := by
    rw [spread_cons, ← Nat.add_assoc] at within ⊢
    have first := head.length (within.of_le (by simp))
    have rest := tail.length within
    rw [spread_cons, spread_nil, Nat.add_zero, spread_cons, spread_nil, Nat.add_zero] at first
    rw [spread_cons]
    omega
  spared {o m} held undamaged := by
    cases held with
    | here held =>
      obtain ⟨before, after, inside, place, undamaged, moved⟩ :=
        head.spared (.here held) undamaged
      refine ⟨.here (holdsIn_singleton.mp before), .here (holdsIn_singleton.mp after), inside,
        place, undamaged, fun within => moved (within.of_le ?_)⟩
      rw [spread_cons, spread_cons, spread_nil]
      omega
    | there held =>
      obtain @⟨n, b, q, i, before, after, inside, rfl, undamaged, moved⟩ :=
        tail.spared held undamaged
      rw [Nat.add_assoc start g.length b] at undamaged moved
      refine ⟨before.there, after.there, inside, (Nat.add_assoc ..).symm, undamaged,
        fun within => ?_⟩
      rw [spread_cons, ← Nat.add_assoc] at within
      have first := head.length (within.of_le (by simp))
      rw [spread_cons, spread_nil, Nat.add_zero, spread_cons, spread_nil, Nat.add_zero] at first
      rw [← moved within, first, Nat.add_assoc]

theorem kept (undamaged : d.edit.damages start (start + g.length) g.lookahead = false) :
    Revised d appended start [g] [g] appended where
  length within := by
    rw [spread_cons, spread_nil, Nat.add_zero] at within ⊢
    have := (DocumentEdit.boundary_of_undamaged within (Nat.le_add_right _ _) undamaged appended).2
    omega
  spared {o m} held _ := by
    refine ⟨.here .root, .here .root, holdsIn_singleton.mp held, (Nat.zero_add o).symm, undamaged,
      fun within => ?_⟩
    rw [spread_cons, spread_nil, Nat.add_zero] at within
    exact (DocumentEdit.boundary_of_undamaged within (Nat.le_add_right _ _) undamaged appended).1

theorem leaf (noChildren : g'.children = []) (damaged : g'.isDamaged = true)
    (length : g'.length =
      d.boundary true (start + g.length) - d.boundary appended start) :
    Revised d appended start [g] [g'] (appended || start + g.length == d.stop) where
  length within := by
    rw [spread_cons, spread_nil, Nat.add_zero] at within ⊢
    have := DocumentEdit.boundary_le within (Nat.le_add_right start g.length) appended
    rw [DocumentEdit.boundary_taken, spread_cons, spread_nil, length]
    omega
  spared held undamaged := by
    rcases (holdsIn_singleton.mp held).cases_root with ⟨-, rfl⟩ | held
    · rw [damaged] at undamaged
      cases undamaged
    · rw [noChildren] at held
      cases held

/-- A damaged node stands over its children after the edit. -/
theorem inner (edited : Revised d appended start g.children gs' appended')
    (length : g.length = spread g.children) (children : g'.children = gs')
    (damaged : g'.isDamaged = true) (length' : g'.length = spread gs') :
    Revised d appended start [g] [g'] appended' where
  length within := by
    rw [spread_cons, spread_nil, Nat.add_zero, length] at within
    rw [spread_cons, spread_nil, Nat.add_zero, spread_cons, spread_nil, Nat.add_zero, length,
      length']
    exact edited.length within
  spared held undamaged := by
    rcases (holdsIn_singleton.mp held).cases_root with ⟨-, rfl⟩ | held
    · rw [damaged] at undamaged
      cases undamaged
    · rw [children] at held
      obtain ⟨before, after, inside, place, undamaged, moved⟩ := edited.spared held undamaged
      refine ⟨.here before.holds, .here (HoldsIn.holds (children ▸ after)), inside, place,
        undamaged, fun within => moved ?_⟩
      rwa [spread_cons, spread_nil, Nat.add_zero, length] at within

end Revised

mutual

theorem revised_editAt (d : DocumentEdit) : ∀ (g : Green) (appended : Bool) (start : Nat)
    (position : Point), g.Summed →
      Revised d appended start [g] [(editAt d appended start position g).value.1]
        (editAt d appended start position g).value.2
  | .mk data cs, appended, start, position, summed => by
    rw [editAt, Checked.value_bind]
    split
    · next undamaged =>
      exact .kept ((Bool.not_eq_true' _).mp undamaged)
    · split
      · next none =>
        refine .leaf (g := mk data cs) (List.isEmpty_iff.mp none) (Bool.or_true _) ?_
        show (d.leafStop (start + data.length) _).value.1 -
          (d.leafStart appended start position).value.1 = _
        rw [DocumentEdit.leafStop_fst, DocumentEdit.leafStart_fst]
        rfl
      · next some =>
        refine .inner (g := mk data cs) (revised_editChildren d cs appended start position
          summed.of_mem) (summed.length_eq fun none => some (List.isEmpty_iff.mpr none)) rfl rfl
          (length_withChildren _ _ _)

theorem revised_editChildren (d : DocumentEdit) : ∀ (gs : List Green) (appended : Bool)
    (start : Nat) (position : Point), (∀ g ∈ gs, g.Summed) →
      Revised d appended start gs (editChildren d appended start position gs).value.1
        (editChildren d appended start position gs).value.2
  | [], appended, start, position, _ => by
    rw [editChildren]
    exact .nil
  | g :: gs, appended, start, position, summed => by
    rw [editChildren]
    exact .cons (revised_editAt d g appended start position (summed g List.mem_cons_self))
      (revised_editChildren d gs _ _ _ fun h hh => summed h (List.mem_cons_of_mem g hh))

end

/-- Every node of an edited tree that is not damaged stands in a subtree that was kept, at the
place that the edit moves it to. -/
theorem Measured.spared {g m : Green} (measured : g.Measured) (e : TextEdit) {o : Nat}
    (held : (g.edit e).value.Holds o m) (undamaged : m.isDamaged = false) :
    ∃ n b q i, g.Holds b n ∧ (g.edit e).value.Holds q n ∧ n.Holds i m ∧ o = q + i ∧
      e.damages b (b + n.length) n.lookahead = false ∧
      (e.startByte ≤ e.oldEndByte → e.startByte ≤ e.newEndByte → e.oldEndByte ≤ g.length →
        q = (e.mapOffset b).value) := by
  have edited := revised_editAt ⟨e, g.length, g.extent⟩ g false 0 Point.zero measured.summed
  obtain @⟨n, b, q, i, before, after, inside, place, undamaged, moved⟩ :=
    edited.spared (.here held) undamaged
  rw [Nat.zero_add b] at undamaged moved
  refine ⟨n, b, q, i, holdsIn_singleton.mp before, holdsIn_singleton.mp after, inside, place,
    undamaged, fun old new within => ?_⟩
  rw [← moved ⟨old, new, within, by simp⟩, DocumentEdit.boundary_start, Nat.zero_add]

end Green

end Glr
