import Glr.Proofs.Following

/-!
# Rows and columns of nodes

A tree keeps no positions.  A node is told where it stands by those above it, who add up the extents
of what is before it, and so its position is right if all these extents are.

They are in a tree that is in step with its text, and a tree stays in step through any history of
edits and of parses that each cover their text (`Tree.History`).  No language has to be known for
that: what a scanner reads, what is taken over of an older tree and what is skipped in an error are
all as wide as their bytes.
-/

namespace Glr

namespace Node

/-- The nodes that are reached from a node by going to children. -/
inductive Below (l : Language) (n : Node) : Node → Prop where
  | self : Below l n n
  | child {m c : Node} (below : Below l n m) (among : c ∈ m.children l) : Below l n c

theorem Below.of {l : Language} {g : Green} {n : Node} (below : (root g).Below l n) :
    n.Of l g ∧ shows l n.place = true := by
  induction below with
  | self => exact ⟨of_root l g, rfl⟩
  | child _ among ih => exact ih.1.child ih.2 among

/-- What is known of the position of a node in a text. -/
structure Positioned (text : Text) (n : Node) : Prop where
  inside : n.span.start ≤ n.span.stop ∧ n.span.stop ≤ text.size
  first : n.startPosition = Point.extentOf (text.extract 0 n.span.start)
  last : n.endPosition = Point.extentOf (text.extract 0 n.span.stop)
  extent : n.green.extent = Point.extentOf (text.extract n.span.start n.span.stop)

/-- All nodes of a tree in step with its text are where they say. -/
theorem Of.positioned {l : Language} {g : Green} {n : Node} {text : Text} (of : n.Of l g)
    (inStep : g.InStep text) : n.Positioned text := by
  obtain ⟨spells, position⟩ := of.within.spells inStep
  obtain ⟨extent, inside⟩ := spells.whole
  refine ⟨⟨Nat.le_add_right _ _, inside⟩, position, ?_, extent⟩
  show n.place.position.advance n.place.green.extent = text.point (n.place.offset + _)
  rw [position, spells.step]

end Node

namespace Tree

/-- A tree of a text with a history: the result of a parse that covers the text, from scratch or
with a tree of the text that has a history, or what an edit of the text made of such a tree. -/
inductive History : Tree → Text → Prop where
  | parsed {p : Parser} {text : Text} {old : Option Tree} {interrupts : Interrupts}
      (small : text.size ≤ Size.largest) (before : ∀ t ∈ old, History t text)
      (whole : (p.parse text old interrupts).value.tree.textLength = text.size) :
      History (p.parse text old interrupts).value.tree text
  | edited {t : Tree} {old new : Text} {e : TextEdit} (before : History t old)
      (turns : e.Turns old new) : History (t.edit e).value new

theorem History.root_inStep {t : Tree} {text : Text} (history : t.History text) :
    t.root.InStep text := by
  induction history with
  | @parsed p text old interrupts small before whole ih =>
    refine ⟨whole, Parser.spells_parse small (fun root hroot => ?_) interrupts whole⟩
    obtain ⟨t, ht, rfl⟩ := Parser.exists_of_mem_oldRoot hroot
    exact (ih t ht).spells
  | edited before turns ih => exact ih.edit turns.between

/-- In a tree with a history every node that is reached by going to children, and every leaf, starts
and ends at the row and the column of its offsets, and has the extent of its bytes. -/
theorem History.rows_and_columns {t : Tree} {text : Text} (history : t.History text) :
    (∀ n, t.rootNode.Below t.language n → n.Positioned text) ∧
      ∀ n ∈ t.leaves, n.Positioned text :=
  ⟨fun _ below => below.of.1.positioned history.root_inStep,
    fun _ leaf => (Node.mem_leavesOf_iff.mp leaf).1.positioned history.root_inStep⟩

/-- A new line between the letters of `ab`, and another parse: it is an error, and the `b` behind it
starts the second row. -/
theorem nested_positioned :
    let p : Parser := ⟨FlatGrammar.nestedLanguage, {}⟩
    let old := ((p.parse Parser.nestedText none .never).value.tree.edit
      (.replace Parser.nestedText 1 1 #[10])).value
    let t := (p.parse #[97, 10, 98] (some old) .never).value.tree
    t.History #[97, 10, 98] ∧
      ∃ n ∈ t.leaves, n.span = ⟨2, 3⟩ ∧ n.startPosition = ⟨1, 0⟩ ∧ n.endPosition = ⟨1, 1⟩ := by
  intro p old t
  have first : (p.parse Parser.nestedText none .never).value.tree.History Parser.nestedText :=
    .parsed (by decide) (fun t ht => absurd ht (Option.not_mem_none t)) (by decide +kernel)
  have edited : old.History #[97, 10, 98] := first.edited (.replaced 1 1 #[10])
  have history : t.History #[97, 10, 98] :=
    .parsed (by decide) (fun _ ht => Option.some.inj ht ▸ edited) (by decide +kernel)
  have spans : t.leaves.map (·.span) = [⟨0, 1⟩, ⟨1, 1⟩, ⟨1, 2⟩, ⟨2, 3⟩] := by decide +kernel
  have last : (⟨2, 3⟩ : Span) ∈ t.leaves.map (·.span) := by simp [spans]
  obtain ⟨n, mem, span⟩ := List.mem_map.mp last
  have positioned := history.rows_and_columns.2 n mem
  have start := positioned.first
  have stop := positioned.last
  rw [span] at start stop
  exact ⟨history, n, mem, span, start.trans (by decide), stop.trans (by decide)⟩

end Tree

end Glr
