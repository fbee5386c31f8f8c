import Glr.Proofs.Places
import Glr.Proofs.Spelling

/-!
# Trees that follow their text

What a tree shows of a text are its leaves: they stand side by side from the start of the text to
its end, and each has the extent of its bytes (`Tree.InStep`).  For a tree in which lengths and
extents add up that is to spell out the text (`Tree.inStep_iff`), so it holds of the tree of a parse
that covers its text, and an edit of the text carries it along.

A tree that has followed its text through any number of parses and edits is in step with it
(`Tree.Follows`), and the next edit keeps it there.
-/

namespace Glr

/-! ## Trees in step -/

namespace Tree

/-- The leaves of a tree hold a text from start to end, each has the extent of its bytes, and above
them all adds up. -/
structure InStep (t : Tree) (text : Text) : Prop where
  joined : t.root.Joined
  covers : t.Covers text
  extents : ∀ n ∈ t.leaves, n.green.extent = Point.extentOf (text.extract n.span.start n.span.stop)

theorem inStep_iff {t : Tree} {text : Text} : t.InStep text ↔ t.root.InStep text := by
  constructor
  · intro ⟨joined, covers, extents⟩
    have length : t.root.length = text.size := covers.length
    refine ⟨length, Green.spells_of_leaves joined (by omega) fun o m held leaf => ?_⟩
    rw [Nat.zero_add]
    exact (Node.forall_leavesOf t.language
      (P := fun o m => m.extent = Point.extentOf (text.extract o (o + m.length)))).mp
      extents o m held leaf
  · intro inStep
    refine ⟨inStep.spells.joined, ⟨inStep.length, ?_⟩, ?_⟩
    · rw [← inStep.length]
      exact Node.tile_leavesOf t.language inStep.spells.summed
    · refine (Node.forall_leavesOf t.language
        (P := fun o m => m.extent = Point.extentOf (text.extract o (o + m.length)))).mpr
        fun o m held _ => ?_
      have here := (inStep.spells.of_holds held).whole.1
      rwa [Nat.zero_add] at here

/-- A tree in step with its text, or one that came about from such by parses that cover their text
and by edits. -/
inductive Follows : Tree → Text → Prop where
  | inStep {t : Tree} {text : Text} (inStep : t.InStep text) : Follows t text
  | parsed {G : Grammar} {p : Parser} {text : Text} {old : Option Tree} {interrupts : Interrupts}
      (compiled : p.language.Compiled G) (small : text.size ≤ Size.largest)
      (measured : ∀ t ∈ old, t.root.Measured) (follows : ∀ t ∈ old, Follows t text)
      (covers : (p.parse text old interrupts).value.tree.Covers text) :
      Follows (p.parse text old interrupts).value.tree text
  | edited {t : Tree} {old new : Text} {e : TextEdit} (follows : Follows t old)
      (turns : e.Turns old new) (small : old.size + new.size ≤ Size.largest) :
      Follows (t.edit e).value new

theorem Follows.root_inStep {t : Tree} {text : Text} (follows : t.Follows text) :
    t.root.InStep text := by
  induction follows with
  | inStep inStep => exact inStep_iff.mp inStep
  | @parsed G p text old interrupts compiled small measured follows covers ih =>
    refine ⟨covers.length, Parser.spells_parse small (fun root hroot => ?_) interrupts
      covers.length⟩
    obtain ⟨t, ht, rfl⟩ := Parser.exists_of_mem_oldRoot hroot
    exact (ih t ht).spells
  | edited follows turns small ih => exact ih.edit turns.between

/-- An edit keeps a tree in step with its text.  What it leaves untouched stands where it moves the
place of that to, with the same bytes. -/
theorem Follows.inStep_edit {t : Tree} {old new : Text} {e : TextEdit} (follows : t.Follows old)
    (turns : e.Turns old new) (small : old.size + new.size < 2 ^ 32) :
    old.extract 0 e.startByte ++ new.extract e.startByte e.newEndByte ++
        old.extract e.oldEndByte old.size = new ∧
      (t.edit e).fits = true ∧
      (t.edit e).value.root.length = new.size ∧
      (t.edit e).value.root.extent = Point.extentOf new ∧
      (t.edit e).value.InStep new ∧
      ∀ p, Place.Untouched e t.root p →
        (e.mapOffset p.offset).fits = true ∧ (e.mapPoint p.position).fits = true ∧
        Place.In (t.edit e).value.root ⟨p.green, (e.mapOffset p.offset).value,
          (e.mapPoint p.position).value, p.address⟩ ∧
        new.extract (e.mapOffset p.offset).value ((e.mapOffset p.offset).value + p.green.length) =
          old.extract p.offset (p.offset + p.green.length) := by
  have between := turns.between
  have small : old.size + new.size ≤ Size.largest := Nat.le_of_lt_succ small
  have before := follows.root_inStep
  have fits := before.fits_edit between small
  have after := before.edit between
  refine ⟨between.pieces_eq, ?_, after.length, after.extent, inStep_iff.mpr after,
    fun p untouched => ?_⟩
  · rw [Tree.edit, Checked.fits_bind, fits]
    rfl
  · obtain ⟨spells, position⟩ := untouched.visited.within.spells before
    have inside := Nat.le_trans (Nat.le_add_right _ _) spells.whole.2
    refine ⟨between.fits_mapOffset small inside, ?_, untouched.moved between before⟩
    rw [position]
    exact between.fits_mapPoint small inside

/-- A new line in front of `ab`: the leaf of the `b` moves along, behind a leaf of no width. -/
theorem nested_follows :
    let p : Parser := ⟨FlatGrammar.nestedLanguage, {}⟩
    let t := (p.parse Parser.nestedText none .never).value.tree
    let e := TextEdit.ofTexts Parser.nestedText #[10, 97, 98]
    (t.edit e).value.InStep #[10, 97, 98] ∧ (t.edit e).value.root.extent = ⟨1, 2⟩ ∧
      ∃ leaf, t.root.Holds 1 leaf ∧ leaf.length = 1 ∧
        Place.In (t.edit e).value.root ⟨leaf, 2, ⟨1, 1⟩, [2]⟩ := by
  intro p t e
  have compiled := FlatGrammar.nestedLanguage_compiled
  have measured : t.root.Measured :=
    Parser.measured_parse compiled (fun t ht => absurd ht (Option.not_mem_none t)) .never
  have covers : t.Covers Parser.nestedText :=
    (Tree.covers_iff measured).mpr (by decide +kernel)
  have follows : t.Follows Parser.nestedText := .parsed compiled (by decide)
    (fun t ht => absurd ht (Option.not_mem_none t)) (fun t ht => absurd ht (Option.not_mem_none t))
    covers
  have turns : e.Turns Parser.nestedText #[10, 97, 98] := .compared _
  obtain ⟨-, -, -, extent, inStep, kept⟩ := Follows.inStep_edit follows turns (by decide)
  refine ⟨inStep, extent, ?_⟩
  have count : t.root.children.length = 3 := by decide +kernel
  have lengths : t.root.children.map (·.length) = [1, 0, 1] := by decide +kernel
  have extents : t.root.children.map (·.extent) = [⟨0, 1⟩, ⟨0, 0⟩, ⟨0, 1⟩] := by decide +kernel
  have damaged : e.damages 0 (0 + t.root.length) t.root.lookahead = true := by decide +kernel
  have stop : e.oldEndByte = 0 := by decide
  have offset : (e.mapOffset 1).value = 2 := by decide
  have position : (e.mapPoint ⟨0, 1⟩).value = ⟨1, 1⟩ := by decide
  clear_value t e
  obtain ⟨a, empty, b, children⟩ := List.length_eq_three.mp count
  rw [children] at lengths extents
  obtain ⟨first, none, last⟩ : a.length = 1 ∧ empty.length = 0 ∧ b.length = 1 := by
    simpa using lengths
  obtain ⟨first', none', -⟩ : a.extent = ⟨0, 1⟩ ∧ empty.extent = ⟨0, 0⟩ ∧ b.extent = ⟨0, 1⟩ := by
    simpa using extents
  have among : t.root.children = [a, empty] ++ b :: [] := children
  have visited : Place.Visited e t.root ⟨b, 1, ⟨0, 1⟩, [2]⟩ := by
    have below := Place.Visited.child .root ((Bool.not_eq_false _).mpr damaged) among
    simpa [first, none, first', none', Point.zero, Point.advance] using below
  have untouched : Place.Untouched e t.root ⟨b, 1, ⟨0, 1⟩, [2]⟩ :=
    ⟨visited, TextEdit.damages_eq_false_iff.mpr (.inl (stop ▸ Nat.zero_lt_one))⟩
  have moved := (kept _ untouched).2.2.1
  rw [offset, position] at moved
  refine ⟨b, ?_, last, moved⟩
  have held := (Green.Holds.root : t.root.Holds 0 t.root).child among
  simpa [first, none] using held

end Tree

end Glr
