import Glr.Proofs.Laying
import Glr.Proofs.Spelled

/-!
# What a parse spells out

A parse lays out trees that spell out the text (`lays_spelled`), and so a root that is as long as
the text is in step with it.  A token has the extent of its bytes where the lexer reads it, and a
leaf or a subtree of the old tree has it because the old tree is in step with the same text.
Nothing else has an extent of its own.
-/

namespace Glr

variable {text : Text} {task : ParseTask} {old : Option Green} {la : Lookahead}

theorem Repair.spells_errorLeaf {start : Nat} (small : text.size ≤ Size.largest)
    (inside : start ≤ text.size) :
    (errorLeaf (text.extract start text.size)).Spells text start := by
  have length : (errorLeaf (text.extract start text.size)).length = text.size - start := by
    rw [length_errorLeaf, Size.ofText, Array.size_extract]
    omega
  rw [Green.spells_of_leaf rfl, length, Nat.add_sub_cancel' inside]
  exact ⟨rfl, Nat.le_refl _⟩

/-- The leaf of the token ahead, taken over or not, has the extent of its bytes. -/
theorem Ahead.spells (ahead : Ahead task old la)
    (spelled : ∀ root ∈ old, root.Spells task.text 0) (inside : la.start.offset ≤ task.text.size)
    (r : Run) (state : StateId) (flags : NodeFlags) :
    (r.makeLeaf la state flags).1.Spells task.text la.start.offset := by
  rw [Green.spells_of_leaf (ahead.leaf_spec r state flags).1]
  cases ahead with
  | @reused place leaf held isLeaf nonempty undamaged correct =>
    obtain ⟨root, hroot, held⟩ := held
    have here := (spelled root hroot).of_holds held
    rw [Nat.zero_add, Green.spells_of_leaf (List.isEmpty_iff.mp isLeaf)] at here
    rw [Run.makeLeaf]
    dsimp only [Run.reusedLookahead, Checked.value_bind, Checked.value_pure]
    split
    · rw [Green.extent_withFlags, Green.length_withFlags]
      exact here
    · show leaf.extent = Point.extentOf (task.text.extract _
        (place.offset + (place.offset + leaf.length - place.offset))) ∧
        place.offset + (place.offset + leaf.length - place.offset) ≤ _
      rw [Nat.add_sub_cancel_left]
      exact here
  | lexed place valid mode =>
    have placed := task.language.placed_nextTokenIn task.text place.offset valid mode
    have extent := task.language.extent_nextTokenIn task.text place.offset valid mode
    have inside : place.offset ≤ task.text.size := inside
    rw [Nat.min_eq_left inside] at placed
    generalize task.language.nextTokenIn task.text place.offset valid mode = t at placed extent
    show t.extent = Point.extentOf (task.text.extract place.offset
        (place.offset + (t.span.stop - t.span.start))) ∧
      place.offset + (t.span.stop - t.span.start) ≤ task.text.size
    rw [extent, placed.start, Nat.add_sub_cancel' placed.le_stop]
    exact ⟨rfl, placed.stop_le⟩

/-- A parse lays out trees that spell out the text, if the old tree spells it out. -/
theorem lays_spelled (small : task.text.size ≤ Size.largest)
    (spelled : ∀ root ∈ old, root.Spells task.text 0) :
    Lays task old (· ≤ task.text.size) (Green.AsWide task.text) where
  start := Nat.zero_le _
  inside here := here
  empty := Green.goodOfEmpty_asWide task.text
  token ahead here r state flags := by
    obtain ⟨wide, stop⟩ := (Green.spells_of_leaf (ahead.leaf_spec r state flags).1).mp
      (ahead.spells spelled here r state flags)
    exact ⟨wide, ahead.length_leaf here r state flags ▸ stop⟩
  rest here := Green.spells_iff_laid.mp (Repair.spells_errorLeaf small here)
  old root hroot := Green.spells_iff_laid.mp (spelled root hroot)

/-- The tree of a parse that covers its text spells it out, if the old tree does. -/
theorem Parser.spells_parse {p : Parser} {old : Option Tree} (small : text.size ≤ Size.largest)
    (spelled : ∀ root ∈ p.oldRoot old, root.Spells text 0) (interrupts : Interrupts)
    (whole : (p.parse text old interrupts).value.tree.root.length = text.size) :
    (p.parse text old interrupts).value.tree.root.Spells text 0 :=
  have lays : Lays (p.task text) (p.oldRoot old) (· ≤ text.size) (Green.AsWide text) :=
    lays_spelled small spelled
  Green.spells_iff_laid.mpr (p.laid_parse lays interrupts whole)

end Glr
