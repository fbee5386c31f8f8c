import Glr.Proofs.InStep
import Glr.Tree.Node

/-!
# Where an edit leaves what it does not touch

An edit goes down from the root through damaged nodes and stops at the first ones that are not:
these are left as they are, and what is below them is not looked at.  They are the largest subtrees
that an edit leaves untouched.

In the edited tree such a subtree is reached by the same address, and it stands where the edit moves
its offset and its position to (`Place.Untouched.moved`).  That is an induction down the tree: for
every place that the edit goes to, it tells where in the edited tree the node stands that is made of
it.
-/

namespace Glr

namespace Place

/-- A place in a tree. -/
inductive In (root : Green) : Place → Prop where
  | root : In root ⟨root, 0, Point.zero, []⟩
  | child {p : Place} {c : Green} {before after : List Green} (above : In root p)
      (among : p.green.children = before ++ c :: after) :
      In root ⟨c, p.offset + Green.spread before, p.position.advance (Green.stretch before),
        before.length :: p.address⟩

/-- Whether an edit leaves what stands at a place as it is. -/
def Undamaged (e : TextEdit) (p : Place) : Prop :=
  e.damages p.offset (p.offset + p.green.length) p.green.lookahead = false

/-- A place that an edit of a tree goes to: all above it is damaged. -/
inductive Visited (e : TextEdit) (root : Green) : Place → Prop where
  | root : Visited e root ⟨root, 0, Point.zero, []⟩
  | child {p : Place} {c : Green} {before after : List Green} (above : Visited e root p)
      (damaged : ¬ p.Undamaged e) (among : p.green.children = before ++ c :: after) :
      Visited e root ⟨c, p.offset + Green.spread before,
        p.position.advance (Green.stretch before), before.length :: p.address⟩

/-- A largest subtree that an edit leaves untouched. -/
structure Untouched (e : TextEdit) (root : Green) (p : Place) : Prop where
  visited : p.Visited e root
  undamaged : p.Undamaged e

variable {e : TextEdit} {root : Green} {text old new : Text} {p : Place}

theorem Visited.within (visited : p.Visited e root) : p.In root := by
  induction visited with
  | root => exact .root
  | child above damaged among ih => exact .child ih among

/-- In a tree in step with a text everything spells out the text from its place on. -/
theorem In.spells (inStep : root.InStep text) (within : p.In root) :
    p.green.Spells text p.offset ∧ p.position = text.point p.offset := by
  induction within with
  | root => exact ⟨inStep.spells, text.point_zero.symm⟩
  | @child p c before after above among ih =>
    obtain ⟨spells, position⟩ := ih
    obtain ⟨-, -, below⟩ := (Green.spells_of_inner (by simp [among])).mp spells
    rw [among] at below
    obtain ⟨front, rest⟩ := Green.spellsIn_append.mp below
    refine ⟨(Green.spellsIn_cons.mp rest).1, ?_⟩
    show p.position.advance (Green.stretch before) = _
    rw [position, front.whole.1, Text.point_advance text (Nat.le_add_right _ _)]

/-- What an edit makes of the node at a place. -/
def edited (d : DocumentEdit) (appended : Bool) (p : Place) : Green :=
  (Green.editAt d appended p.offset p.position p.green).value.1

section Moved

variable (h : e.Between old new) (inStep : root.InStep old)

include h inStep

/-- What an edit makes of a node is reached by the address of the node, and stands where the
boundary before the node lies after the edit. -/
theorem Visited.moved (visited : p.Visited e root) : ∃ appended,
    In (root.edit e).value ⟨p.edited (e.document old) appended,
      (e.document old).boundary appended p.offset,
      new.point ((e.document old).boundary appended p.offset), p.address⟩ := by
  induction visited with
  | root =>
    refine ⟨false, ?_⟩
    have same : (root.edit e).value = edited (e.document old) false ⟨root, 0, Point.zero, []⟩ := by
      rw [inStep.edit_eq, Text.point_zero]
      rfl
    rw [← same]
    show In _ ⟨_, (e.document old).boundary false 0, _, []⟩
    rw [DocumentEdit.boundary_start, Text.point_zero]
    exact .root
  | @child p c before after above damaged among ih =>
    obtain ⟨appended, held⟩ := ih
    obtain ⟨spells, position⟩ := above.within.spells inStep
    have inner : p.green.children ≠ [] := by simp [among]
    obtain ⟨-, -, below⟩ := (Green.spells_of_inner inner).mp spells
    rw [among] at below
    obtain ⟨front, -⟩ := Green.spellsIn_append.mp below
    have children := congrArg (fun r => r.1.children) (Green.editAt_of_inner
      (d := e.document old) inner ((Bool.not_eq_false _).mp damaged) appended p.position)
    have children : (p.edited (e.document old) appended).children = _ := children
    rw [Green.children_withChildren, among, Green.editChildren_append,
      Green.value_editChildren_cons] at children
    have step := held.child children
    have place := (Green.revised_editChildren (e.document old) before appended p.offset p.position
      front.summed).length (h.within front.whole.2)
    have made := Green.spells_editChildren h appended front
    rw [← position] at made
    simp only at step
    rw [Green.length_editChildren, made.whole.1, Text.point_advance new (Nat.le_add_right _ _),
      ← place] at step
    exact ⟨_, step⟩

/-- What an edit leaves untouched stands where the edit moves its place to, and has there the bytes
that it had before. -/
theorem Untouched.moved (untouched : p.Untouched e root) :
    In (root.edit e).value ⟨p.green, (e.mapOffset p.offset).value, (e.mapPoint p.position).value,
      p.address⟩ ∧
    new.extract (e.mapOffset p.offset).value ((e.mapOffset p.offset).value + p.green.length) =
      old.extract p.offset (p.offset + p.green.length) := by
  obtain ⟨visited, undamaged⟩ := untouched
  obtain ⟨appended, held⟩ := visited.moved h inStep
  obtain ⟨spells, position⟩ := visited.within.spells inStep
  have inside := spells.whole.2
  have le := Nat.le_add_right p.offset p.green.length
  have same : p.edited (e.document old) appended = p.green :=
    congrArg Prod.fst
      (Green.editAt_of_undamaged (d := e.document old) undamaged appended p.position)
  obtain ⟨place, -⟩ := DocumentEdit.boundary_of_undamaged (h.within inside) le undamaged appended
  have place : (e.document old).boundary appended p.offset = (e.mapOffset p.offset).value := place
  rw [same, place, ← h.point_mapOffset (Nat.le_trans le inside), ← position] at held
  refine ⟨held, ?_⟩
  have bytes := (h.agree_mapOffset le undamaged).extract_eq inside (Nat.le_refl _)
  rwa [Nat.add_sub_cancel_left] at bytes

end Moved

end Place

end Glr
