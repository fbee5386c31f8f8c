import Glr.Proofs.Coverage
import Glr.Proofs.Spelled

/-!
# Trees in step with their text

A tree is in step with a text that it spells out from start to end.  An edit that turns the text
into another makes of the tree one that is in step with the other (`Green.InStep.edit`).

The proof goes through the leaves from left to right, as that of `Green.Revised` does.  Where a
boundary between leaves lies after the edit is told twice, as an offset and as row and column, and
the two are one place of the new text (`Between.value_leafStart`), so a leaf between two boundaries
is as wide as the bytes between them.  What is left is the end of the document: text that is added
there has to be taken by some leaf, or the new tree is too short.
-/

namespace Glr

/-! ## Boundaries as places -/

/-- An edit of a text that is a whole document. -/
def TextEdit.document (e : TextEdit) (old : Text) : DocumentEdit :=
  ⟨e, old.size, Point.extentOf old⟩

namespace TextEdit.Between

variable {old new : Text} {e : TextEdit} {o : Nat} (h : e.Between old new)

include h

theorem within (le : o ≤ old.size) : (e.document old).Within o :=
  ⟨h.start_le_old, h.start_le_new, h.old_le_size, le⟩

theorem boundary_end : (e.document old).boundary true old.size = new.size := by
  have := h.size
  rw [DocumentEdit.boundary, if_pos (by simp [document])]
  show old.size + e.newEndByte - e.oldEndByte = new.size
  omega

theorem boundary_le_size (appended : Bool) (le : o ≤ old.size) :
    (e.document old).boundary appended o ≤ new.size := by
  rw [DocumentEdit.boundary]
  split
  · have := h.size
    show old.size + e.newEndByte - e.oldEndByte ≤ new.size
    omega
  · exact h.mapOffset_le le

theorem value_newStop : (e.document old).newStop.value = (new.size, new.point new.size) := by
  have size := h.size
  refine Prod.ext ?_ ?_
  · show old.size + e.newEndByte - e.oldEndByte = new.size
    omega
  · show e.newEndPoint.advance (e.oldEndPoint.extentTo (Point.extentOf old)) = _
    rw [← Text.point_size, ← h.point_behind h.old_le_size (Nat.le_refl _)]
    congr 1
    have := h.old_le_size
    omega

theorem value_mapPlace (le : o ≤ old.size) : ((e.document old).mapPlace o (old.point o)).value =
    ((e.mapOffset o).value, new.point (e.mapOffset o).value) :=
  Prod.ext rfl (h.point_mapOffset le)

theorem value_leafStart (appended : Bool) (le : o ≤ old.size) :
    ((e.document old).leafStart appended o (old.point o)).value =
      ((e.document old).boundary appended o, new.point ((e.document old).boundary appended o)) := by
  rw [DocumentEdit.leafStart]
  split
  · next last =>
    obtain ⟨taken, atEnd⟩ := Bool.and_eq_true_iff.mp last
    obtain rfl : o = old.size := beq_iff_eq.mp atEnd
    rw [taken, h.boundary_end, h.value_newStop]
  · next inner =>
    rw [DocumentEdit.boundary, if_neg inner]
    exact h.value_mapPlace le

theorem value_leafStop (le : o ≤ old.size) :
    ((e.document old).leafStop o (old.point o)).value =
      ((e.document old).boundary true o, new.point ((e.document old).boundary true o)) := by
  have same : (e.document old).leafStop o (old.point o) =
      (e.document old).leafStart true o (old.point o) := by
    rw [DocumentEdit.leafStop, DocumentEdit.leafStart, Bool.true_and]
  rw [same, h.value_leafStart true le]

section Fits

variable (small : old.size + new.size ≤ Size.largest)

include small

theorem fits_newStop : (e.document old).newStop.fits = true := by
  have value := congrArg Prod.snd h.value_newStop
  have bound : old.size + e.newEndByte ≤ Size.largest := by
    have := h.size
    have := h.old_le_size
    omega
  have point : (e.newEndPoint.advance (e.oldEndPoint.extentTo (Point.extentOf old))).inRange =
      true := by
    rw [show e.newEndPoint.advance (e.oldEndPoint.extentTo (Point.extentOf old)) = _ from value]
    exact Text.point_inRange (by omega) _
  rw [DocumentEdit.newStop]
  simp only [Checked.fits_bind, Checked.fits_pure, Bool.and_true]
  rw [Bool.and_eq_true]
  exact ⟨decide_eq_true bound, point⟩

theorem fits_mapOffset (le : o ≤ old.size) : (e.mapOffset o).fits = true := by
  have bound := h.mapOffset_le le
  rw [value_mapOffset] at bound
  rw [mapOffset]
  split
  · rfl
  · next behind =>
    rw [if_neg behind] at bound
    split
    · next further =>
      rw [if_pos further] at bound
      exact decide_eq_true (by omega)
    · rfl

theorem fits_mapPoint (le : o ≤ old.size) : (e.mapPoint (old.point o)).fits = true := by
  have value := h.point_mapOffset le
  rw [mapPoint] at value ⊢
  split
  · rfl
  · next behind =>
    rw [if_neg behind] at value
    split
    · next further =>
      rw [if_pos further, Point.value_advanceChecked] at value
      show Point.inRange _ = true
      rw [value]
      exact Text.point_inRange (by omega) _
    · rfl

theorem fits_mapPlace (le : o ≤ old.size) :
    ((e.document old).mapPlace o (old.point o)).fits = true := by
  rw [DocumentEdit.mapPlace]
  simp only [Checked.fits_bind, Checked.fits_pure, Bool.and_true]
  rw [Bool.and_eq_true]
  exact ⟨h.fits_mapOffset small le, h.fits_mapPoint small le⟩

theorem fits_leafStart (appended : Bool) (le : o ≤ old.size) :
    ((e.document old).leafStart appended o (old.point o)).fits = true := by
  rw [DocumentEdit.leafStart]
  split
  · exact h.fits_newStop small
  · exact h.fits_mapPlace small le

theorem fits_leafStop (le : o ≤ old.size) :
    ((e.document old).leafStop o (old.point o)).fits = true := by
  rw [DocumentEdit.leafStop]
  split
  · exact h.fits_newStop small
  · exact h.fits_mapPlace small le

end Fits

end TextEdit.Between

namespace Green

/-! ## Edits -/

theorem fits_totalLength {gs : List Green} (small : spread gs ≤ Size.largest) :
    (totalLength gs).fits = true := by
  have walk : ∀ (gs : List Green) (n : Nat), n + spread gs ≤ Size.largest →
      (gs.foldlM (fun n g => Size.add n g.length) n).fits = true := by
    intro gs
    induction gs with
    | nil => exact fun _ _ => rfl
    | cons g gs ih =>
      intro n small
      rw [spread_cons, ← Nat.add_assoc] at small
      rw [List.foldlM_cons, Checked.fits_bind, Bool.and_eq_true]
      exact ⟨decide_eq_true (Nat.le_trans (Nat.le_add_right _ _) small), ih _ small⟩
  exact walk gs 0 (by rwa [Nat.zero_add])

theorem fits_totalExtent {text : Text} {start : Nat} {gs : List Green}
    (small : text.size ≤ Size.largest) (spells : SpellsIn text start gs) :
    (totalExtent gs).fits = true := by
  have walk : ∀ (gs : List Green) (o : Nat), start ≤ o → SpellsIn text o gs →
      (gs.foldlM (fun p g => p.advanceChecked g.extent)
        (Point.extentOf (text.extract start o)) : Checked Point).fits = true := by
    intro gs
    induction gs with
    | nil => exact fun _ _ _ => rfl
    | cons g gs ih =>
      intro o le spells
      obtain ⟨head, tail⟩ := spellsIn_cons.mp spells
      have here : (Point.extentOf (text.extract start o)).advance g.extent =
          Point.extentOf (text.extract start (o + g.length)) := by
        rw [head.whole.1, ← Text.extentOf_extract text le (Nat.le_add_right _ _)]
      rw [List.foldlM_cons, Checked.fits_bind, Bool.and_eq_true, Point.value_advanceChecked, here]
      refine ⟨?_, ih _ (Nat.le_trans le (Nat.le_add_right _ _)) tail⟩
      show Point.inRange _ = true
      rw [here]
      refine Point.extentOf_inRange ?_
      rw [Array.size_extract]
      omega
  have first := walk gs start (Nat.le_refl _) spells
  rwa [Array.extract_empty_of_stop_le_start (Nat.le_refl _)] at first

theorem fits_withChildren {text : Text} {start : Nat} {g : Green} {gs : List Green}
    {f : NodeFlags} (small : text.size ≤ Size.largest) (spells : SpellsIn text start gs) :
    (g.withChildren gs f).fits = true := by
  have length : spread gs ≤ Size.largest := by
    have := spells.whole.2
    omega
  rw [withChildren]
  simp only [Checked.fits_bind, Checked.fits_pure, Bool.and_true]
  rw [Bool.and_eq_true]
  exact ⟨fits_totalLength length, fits_totalExtent small spells⟩

theorem editAt_of_undamaged {d : DocumentEdit} {g : Green} {start : Nat}
    (undamaged : d.edit.damages start (start + g.length) g.lookahead = false) (appended : Bool)
    (position : Point) : (editAt d appended start position g).value = (g, appended) := by
  obtain ⟨data, cs⟩ := g
  have undamaged : d.edit.damages start (start + data.length) data.lookahead = false := undamaged
  rw [editAt, Checked.value_bind, Size.value_add, undamaged]
  rfl

theorem editAt_of_inner {d : DocumentEdit} {g : Green} {start : Nat} (inner : g.children ≠ [])
    (damaged : d.edit.damages start (start + g.length) g.lookahead = true) (appended : Bool)
    (position : Point) : (editAt d appended start position g).value =
      ((g.withChildren (editChildren d appended start position g.children).value.1
        NodeFlags.onlyDamaged).value,
      (editChildren d appended start position g.children).value.2) := by
  obtain ⟨data, cs⟩ := g
  have damaged : d.edit.damages start (start + data.length) data.lookahead = true := damaged
  have some : ¬cs.isEmpty = true := fun none => inner (List.isEmpty_iff.mp none)
  rw [editAt, Checked.value_bind, Size.value_add, damaged, if_neg (by decide), if_neg some]
  rfl

theorem value_editChildren_cons (d : DocumentEdit) (appended : Bool) (start : Nat)
    (position : Point) (g : Green) (gs : List Green) :
    (editChildren d appended start position (g :: gs)).value =
      ((editAt d appended start position g).value.1 ::
        (editChildren d (editAt d appended start position g).value.2 (start + g.length)
          (position.advance g.extent) gs).value.1,
      (editChildren d (editAt d appended start position g).value.2 (start + g.length)
        (position.advance g.extent) gs).value.2) := by
  rw [editChildren]
  rfl

theorem editChildren_append (d : DocumentEdit) (gs hs : List Green) (appended : Bool)
    (start : Nat) (position : Point) :
    (editChildren d appended start position (gs ++ hs)).value =
      ((editChildren d appended start position gs).value.1 ++
        (editChildren d (editChildren d appended start position gs).value.2 (start + spread gs)
          (position.advance (stretch gs)) hs).value.1,
      (editChildren d (editChildren d appended start position gs).value.2 (start + spread gs)
        (position.advance (stretch gs)) hs).value.2) := by
  induction gs generalizing appended start position with
  | nil =>
    rw [editChildren]
    rfl
  | cons g gs ih =>
    rw [List.cons_append, value_editChildren_cons, ih, value_editChildren_cons, spread_cons,
      stretch_cons, Nat.add_assoc, Point.advance_assoc]
    rfl

theorem length_editChildren (d : DocumentEdit) (gs : List Green) (appended : Bool) (start : Nat)
    (position : Point) :
    (editChildren d appended start position gs).value.1.length = gs.length := by
  induction gs generalizing appended start position with
  | nil => rw [editChildren, Checked.value_pure]
  | cons g gs ih =>
    rw [value_editChildren_cons]
    exact congrArg (· + 1) (ih _ _ _)

/-- The step over a tree that is in step with a text. -/
theorem Spells.step {text : Text} {o : Nat} {g : Green} (spells : g.Spells text o) :
    (text.point o).advance g.extent = text.point (o + g.length) := by
  rw [spells.whole.1, Text.point_advance text (Nat.le_add_right _ _)]

theorem Spells.fits_step {text : Text} {o : Nat} {g : Green} (small : text.size ≤ Size.largest)
    (spells : g.Spells text o) : (Size.add o g.length).fits = true ∧
      ((text.point o).advanceChecked g.extent).fits = true := by
  refine ⟨decide_eq_true (Nat.le_trans spells.whole.2 small), ?_⟩
  show Point.inRange _ = true
  rw [spells.step]
  exact Text.point_inRange small _

section Edit

variable {old new : Text} {e : TextEdit} (h : e.Between old new)

include h

theorem spells_editLeaf {g : Green} {o : Nat} (leaf : g.children = []) (spells : g.Spells old o)
    (appended : Bool) : (editLeaf (e.document old) appended o (old.point o) g).value.Spells new
      ((e.document old).boundary appended o) := by
  have inside := spells.whole.2
  have first : o ≤ old.size := Nat.le_trans (Nat.le_add_right _ _) inside
  have order := DocumentEdit.boundary_le (h.within inside) (Nat.le_add_right o g.length) appended
  have last := h.boundary_le_size true inside
  rw [editLeaf]
  simp only [Checked.value_bind, Point.value_advanceChecked, Size.value_add, Checked.value_pure,
    spells.step, h.value_leafStart appended first, h.value_leafStop inside]
  refine (spells_of_leaf (show (g.resized _ _ _).children = [] from leaf)).mpr ?_
  show Point.extentTo _ _ = Point.extentOf (new.extract _ (_ + (_ - _))) ∧ _ + (_ - _) ≤ new.size
  rw [Nat.add_sub_cancel' order]
  exact ⟨Text.extentTo_point new order, last⟩

mutual

/-- An edit makes of a tree that spells out the old text one that spells out the new text, from the
boundary on that lies where the tree started. -/
theorem spells_editAt : ∀ {g : Green} {o : Nat} (appended : Bool), g.Spells old o →
    (editAt (e.document old) appended o (old.point o) g).value.1.Spells new
      ((e.document old).boundary appended o)
  | mk data cs, o, appended, spells => by
    have inside : o + data.length ≤ old.size := spells.whole.2
    rw [editAt, Checked.value_bind, Size.value_add]
    split
    · next undamaged =>
      have undamaged := (Bool.not_eq_true' _).mp undamaged
      have le := Nat.le_add_right o data.length
      obtain ⟨place, stop⟩ :=
        DocumentEdit.boundary_of_undamaged (h.within inside) le undamaged appended
      refine spells.moved ?_ ?_
      · rw [place]
        exact h.agree_mapOffset le undamaged
      · rw [Nat.add_sub_cancel_left] at stop
        exact stop ▸ h.boundary_le_size appended inside
    · split
      · next none =>
        exact spells_editLeaf h (g := mk data cs) (List.isEmpty_iff.mp none) spells appended
      · exact spells_of_children (length_withChildren _ _ _) (extent_withChildren _ _ _)
          (spells_editChildren appended (show SpellsIn old o cs from spells.below))

theorem spells_editChildren : ∀ {gs : List Green} {o : Nat} (appended : Bool), SpellsIn old o gs →
    SpellsIn new ((e.document old).boundary appended o)
      (editChildren (e.document old) appended o (old.point o) gs).value.1
  | [], o, appended, spells => by
    rw [editChildren]
    exact spellsIn_nil.mpr (h.boundary_le_size appended (spellsIn_nil.mp spells))
  | g :: gs, o, appended, spells => by
    obtain ⟨head, tail⟩ := spellsIn_cons.mp spells
    have joined := (revised_editAt (e.document old) g appended o (old.point o) head.summed).length
      (by simpa using h.within head.whole.2)
    have rest := spells_editChildren
      (editAt (e.document old) appended o (old.point o) g).value.2 tail
    rw [value_editChildren_cons, head.step]
    refine spellsIn_cons.mpr ⟨spells_editAt appended head, ?_⟩
    simp only [spread_cons, spread_nil, Nat.add_zero] at joined
    rwa [← joined]

end

variable (small : old.size + new.size ≤ Size.largest)

include small

theorem fits_editLeaf {g : Green} {o : Nat} (spells : g.Spells old o) (appended : Bool) :
    (editLeaf (e.document old) appended o (old.point o) g).fits = true := by
  have inside := spells.whole.2
  have first : o ≤ old.size := Nat.le_trans (Nat.le_add_right _ _) inside
  obtain ⟨length, extent⟩ := spells.fits_step (Nat.le_trans (Nat.le_add_right _ _) small)
  rw [editLeaf]
  simp only [Checked.fits_bind, Point.value_advanceChecked, Size.value_add, Checked.fits_pure,
    spells.step, h.fits_leafStart small appended first, h.fits_leafStop small inside, length,
    extent, Bool.and_true]

end Edit

mutual

/-- No number that an edit computes on the way is too large. -/
theorem fits_editAt {old new : Text} {e : TextEdit} (h : e.Between old new)
    (small : old.size + new.size ≤ Size.largest) : ∀ {g : Green} {o : Nat} (appended : Bool),
      g.Spells old o → (editAt (e.document old) appended o (old.point o) g).fits = true
  | mk data cs, o, appended, spells => by
    obtain ⟨length, -⟩ := spells.fits_step (Nat.le_trans (Nat.le_add_right _ _) small)
    have length : (Size.add o data.length).fits = true := length
    rw [editAt, Checked.fits_bind, length, Bool.true_and, Size.value_add]
    split
    · rfl
    · split
      · rw [Checked.fits_bind, fits_editLeaf h small spells appended]
        rfl
      · have below : SpellsIn old o cs := spells.below
        have children := spells_editChildren h appended below
        rw [Checked.fits_bind, fits_editChildren h small appended below, Bool.true_and,
          Checked.fits_bind, Checked.fits_pure, Bool.and_true]
        exact fits_withChildren (Nat.le_trans (Nat.le_add_left _ _) small) children

theorem fits_editChildren {old new : Text} {e : TextEdit} (h : e.Between old new)
    (small : old.size + new.size ≤ Size.largest) :
    ∀ {gs : List Green} {o : Nat} (appended : Bool), SpellsIn old o gs →
      (editChildren (e.document old) appended o (old.point o) gs).fits = true
  | [], _, _, _ => by
    rw [editChildren]
    rfl
  | g :: gs, o, appended, spells => by
    obtain ⟨head, tail⟩ := spellsIn_cons.mp spells
    obtain ⟨length, extent⟩ := head.fits_step (Nat.le_trans (Nat.le_add_right _ _) small)
    have rest := fits_editChildren h small
      (editAt (e.document old) appended o (old.point o) g).value.2 tail
    rw [editChildren]
    simp only [Checked.fits_bind, Point.value_advanceChecked, Size.value_add, Checked.fits_pure,
      head.step, length, extent, fits_editAt h small appended head, rest, Bool.and_true]

end

/-! ## The end of the document -/

mutual

/-- Text that is added at the end of a document is taken by a leaf that ends there. -/
theorem taken_editAt {d : DocumentEdit} (added : d.edit.startByte = d.stop)
    (atEnd : d.edit.oldEndByte = d.stop) : ∀ {g : Green} {start : Nat} (appended : Bool)
    (position : Point), g.Summed → start + g.length = d.stop →
      (editAt d appended start position g).value.2 = true
  | mk data cs, start, appended, position, summed, last => by
    have last : start + data.length = d.stop := last
    have damaged : d.edit.damages start (start + data.length) data.lookahead = true := by
      rw [TextEdit.damages, Bool.and_eq_true, decide_eq_true_eq, decide_eq_true_eq]
      omega
    rw [editAt, Checked.value_bind, Size.value_add, damaged, if_neg (by decide)]
    split
    · show (appended || start + data.length == d.stop) = true
      rw [last, beq_self_eq_true, Bool.or_true]
    · next some =>
      have some : cs ≠ [] := fun none => some (List.isEmpty_iff.mpr none)
      have length : data.length = spread cs := summed.length_eq some
      exact taken_editChildren added atEnd appended position summed.of_mem some
        (by rw [← length, last])

theorem taken_editChildren {d : DocumentEdit} (added : d.edit.startByte = d.stop)
    (atEnd : d.edit.oldEndByte = d.stop) : ∀ {gs : List Green} {start : Nat} (appended : Bool)
    (position : Point), (∀ g ∈ gs, g.Summed) → gs ≠ [] → start + spread gs = d.stop →
      (editChildren d appended start position gs).value.2 = true
  | [], _, _, _, _, nonempty, _ => absurd rfl nonempty
  | g :: gs, start, appended, position, summed, _, last => by
    rw [spread_cons, ← Nat.add_assoc] at last
    rw [value_editChildren_cons]
    by_cases more : gs = []
    · obtain rfl := more
      rw [editChildren]
      exact taken_editAt added atEnd appended position (summed g List.mem_cons_self) last
    · exact taken_editChildren added atEnd _ _
        (fun c hc => summed c (List.mem_cons_of_mem g hc)) more last

end

/-- A tree is in step with a text that it spells out from start to end. -/
structure InStep (g : Green) (text : Text) : Prop where
  length : g.length = text.size
  spells : g.Spells text 0

section Whole

variable {old new : Text} {e : TextEdit} {g : Green} (h : e.Between old new) (inStep : g.InStep old)

include inStep

theorem InStep.extent : g.extent = Point.extentOf old := by
  rw [inStep.spells.whole.1, inStep.length, Nat.zero_add, Array.extract_size]

theorem InStep.edit_eq : g.edit e = do
    let (g, _) ← editAt (e.document old) false 0 (old.point 0) g
    return g := by
  rw [edit, inStep.length, inStep.extent, Text.point_zero]
  rfl

include h

theorem InStep.length_edit : (g.edit e).value.length = new.size := by
  have summed := inStep.spells.summed
  have joined := (revised_editAt (e.document old) g false 0 (old.point 0) summed).length
    (by simpa [inStep.length] using h.within (Nat.le_refl _))
  simp only [spread_cons, spread_nil, Nat.add_zero, Nat.zero_add, inStep.length] at joined
  rw [DocumentEdit.boundary_start, Nat.zero_add] at joined
  rw [inStep.edit_eq]
  show (editAt (e.document old) false 0 (old.point 0) g).value.1.length = new.size
  rw [← joined]
  have size := h.size
  have inside := h.old_le_size
  have order := h.start_le_old
  by_cases added : e.startByte = old.size
  · rw [taken_editAt (d := e.document old) added (show e.oldEndByte = old.size by omega) false _
      summed (by rw [Nat.zero_add]; exact inStep.length), h.boundary_end]
  · rw [DocumentEdit.boundary]
    split
    · show old.size + e.newEndByte - e.oldEndByte = new.size
      omega
    · show (e.mapOffset old.size).value = new.size
      rw [TextEdit.value_mapOffset, if_neg (by omega), if_pos inside]
      omega

/-- A tree in step with a text is in step with the edited one after the edit. -/
theorem InStep.edit : (g.edit e).value.InStep new := by
  have spells := spells_editAt h false inStep.spells
  rw [DocumentEdit.boundary_start] at spells
  refine ⟨inStep.length_edit h, ?_⟩
  rw [inStep.edit_eq]
  exact spells

theorem InStep.fits_edit (small : old.size + new.size ≤ Size.largest) :
    (g.edit e).fits = true := by
  rw [inStep.edit_eq, Checked.fits_bind, fits_editAt h small false inStep.spells]
  rfl

end Whole

end Green

end Glr
