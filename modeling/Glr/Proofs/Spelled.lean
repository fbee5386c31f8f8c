import Glr.Proofs.Laid

/-!
# Trees that spell out a text

A tree spells out a text from an offset on if every leaf of it has the extent of the bytes that the
leaf stands for, and every other node is as long and as wide as its children together
(`Green.Spells`).  So the tree is laid out over the text, with leaves that are as wide as their
bytes (`Green.spells_iff_laid`), and what holds of the leaves holds of every node, by adding up.

That is said of bytes and not of a text: where the same bytes stand in another text, the tree spells
out that one as well (`Green.Spells.moved`).
-/

namespace Glr

namespace Green

mutual

/-- From an offset on a tree spells out a text. -/
def Spells (text : Text) (start : Nat) : Green → Prop
  | mk d cs =>
    (cs = [] → d.extent = Point.extentOf (text.extract start (start + d.length)) ∧
      start + d.length ≤ text.size) ∧
    (cs ≠ [] → d.length = spread cs ∧ d.extent = stretch cs) ∧ SpellsIn text start cs

/-- From an offset on trees side by side spell out a text. -/
def SpellsIn (text : Text) (start : Nat) : List Green → Prop
  | [] => start ≤ text.size
  | g :: gs => Spells text start g ∧ SpellsIn text (start + g.length) gs

end

-- Where the tree is the result of a parse, to look into them is to run the parse.
attribute [irreducible] Spells SpellsIn

/-- A leaf at an offset of a text has the extent of its bytes. -/
def AsWide (text : Text) (o : Nat) (g : Green) : Prop :=
  g.extent = Point.extentOf (text.extract o (o + g.length))

section Spells

variable {text : Text} {start : Nat} {g : Green} {gs hs : List Green}

theorem spells_of_leaf (leaf : g.children = []) :
    g.Spells text start ↔ g.extent = Point.extentOf (text.extract start (start + g.length)) ∧
      start + g.length ≤ text.size := by
  obtain ⟨d, cs⟩ := g
  obtain rfl : cs = [] := leaf
  rw [Spells, SpellsIn]
  refine ⟨fun h => h.1 rfl, fun h => ⟨fun _ => h, absurd rfl, ?_⟩⟩
  exact Nat.le_trans (Nat.le_add_right _ _) h.2

theorem spells_of_inner (inner : g.children ≠ []) :
    g.Spells text start ↔ g.length = spread g.children ∧ g.extent = stretch g.children ∧
      SpellsIn text start g.children := by
  obtain ⟨d, cs⟩ := g
  rw [Spells]
  exact ⟨fun h => ⟨(h.2.1 inner).1, (h.2.1 inner).2, h.2.2⟩,
    fun h => ⟨fun none => absurd none inner, fun _ => ⟨h.1, h.2.1⟩, h.2.2⟩⟩

theorem spellsIn_nil : SpellsIn text start [] ↔ start ≤ text.size := by rw [SpellsIn]

theorem spellsIn_cons : SpellsIn text start (g :: gs) ↔
    g.Spells text start ∧ SpellsIn text (start + g.length) gs := by rw [SpellsIn]

mutual

/-- To spell out a text is to be laid out over it, with leaves that are as wide as their bytes. -/
theorem spells_iff_laid {text : Text} : ∀ {g : Green} {start : Nat}, g.Spells text start ↔
    g.Laid (· ≤ text.size) (AsWide text) start
  | mk d cs, start => by
    by_cases leaf : cs = []
    · rw [spells_of_leaf (g := mk d cs) leaf, laid_of_leaf (g := mk d cs) leaf]
      exact (and_iff_right_of_imp fun h => Nat.le_trans (Nat.le_add_right _ _) h.2).symm
    · rw [spells_of_inner (g := mk d cs) leaf, laid_of_inner (g := mk d cs) leaf]
      have below : SpellsIn text start cs ↔ LaidIn _ _ start cs := spellsIn_iff_laidIn
      exact and_congr_right fun _ => and_congr_right fun _ => below

theorem spellsIn_iff_laidIn {text : Text} : ∀ {gs : List Green} {start : Nat},
    SpellsIn text start gs ↔ LaidIn (· ≤ text.size) (AsWide text) start gs
  | [], _ => by rw [spellsIn_nil, laidIn_nil]
  | g :: gs, start => by
    rw [spellsIn_cons, laidIn_cons, spells_iff_laid, spellsIn_iff_laidIn]

end

theorem goodOfEmpty_asWide (text : Text) : GoodOfEmpty (· ≤ text.size) (AsWide text) := by
  intro o g _ _ length extent
  rw [AsWide, length, extent, Nat.add_zero, Array.extract_empty_of_stop_le_start (Nat.le_refl _)]
  rfl

theorem Spells.below (h : g.Spells text start) : SpellsIn text start g.children :=
  spellsIn_iff_laidIn.mpr (spells_iff_laid.mp h).below

theorem spells_of_children (length : g.length = spread g.children)
    (extent : g.extent = stretch g.children) (below : SpellsIn text start g.children) :
    g.Spells text start :=
  spells_iff_laid.mpr (laid_of_children (goodOfEmpty_asWide text) length extent
    (spellsIn_iff_laidIn.mp below))

theorem spellsIn_append : SpellsIn text start (gs ++ hs) ↔
    SpellsIn text start gs ∧ SpellsIn text (start + spread gs) hs := by
  simp only [spellsIn_iff_laidIn, laidIn_append]

theorem Spells.joined (h : g.Spells text start) : g.Joined := (spells_iff_laid.mp h).joined

theorem SpellsIn.joined (h : SpellsIn text start gs) : ∀ g ∈ gs, g.Joined :=
  (spellsIn_iff_laidIn.mp h).joined

/-- What stands in a tree spells out the text where it stands. -/
theorem Spells.of_holds {root n : Green} {o : Nat} (h : root.Spells text start)
    (held : root.Holds o n) : n.Spells text (start + o) :=
  spells_iff_laid.mpr ((spells_iff_laid.mp h).of_holds held)

mutual

/-- A tree that spells out a text is as wide as its bytes are, and these are there. -/
theorem Spells.whole {text : Text} : ∀ {g : Green} {start : Nat}, g.Spells text start →
    g.extent = Point.extentOf (text.extract start (start + g.length)) ∧
      start + g.length ≤ text.size
  | mk d cs, start, h => by
    by_cases leaf : cs = []
    · exact (spells_of_leaf (g := mk d cs) leaf).mp h
    · obtain ⟨length, extent, below⟩ := (spells_of_inner (g := mk d cs) leaf).mp h
      have : stretch cs = _ ∧ _ := SpellsIn.whole below
      rw [extent, length]
      exact this

theorem SpellsIn.whole {text : Text} : ∀ {gs : List Green} {start : Nat}, SpellsIn text start gs →
    stretch gs = Point.extentOf (text.extract start (start + spread gs)) ∧
      start + spread gs ≤ text.size
  | [], start, h => by
    refine ⟨?_, spellsIn_nil.mp h⟩
    rw [spread_nil, Nat.add_zero, Array.extract_empty_of_stop_le_start (Nat.le_refl _)]
    rfl
  | g :: gs, start, h => by
    obtain ⟨head, tail⟩ := spellsIn_cons.mp h
    obtain ⟨extent, -⟩ := Spells.whole head
    obtain ⟨rest, inside⟩ := SpellsIn.whole tail
    rw [stretch_cons, spread_cons, ← Nat.add_assoc]
    refine ⟨?_, inside⟩
    rw [extent, rest, ← Text.extentOf_extract text (Nat.le_add_right _ _) (Nat.le_add_right _ _)]

end

theorem Spells.summed (h : g.Spells text start) : g.Summed := h.joined.summed

theorem SpellsIn.summed (h : SpellsIn text start gs) : ∀ g ∈ gs, g.Summed :=
  fun g hg => (h.joined g hg).summed

mutual

/-- A tree spells out the same bytes wherever they stand. -/
theorem Spells.moved {text text' : Text} : ∀ {g : Green} {start start' : Nat},
    g.Spells text start → Text.Agree text start text' start' (start + g.length) →
      start' + g.length ≤ text'.size → g.Spells text' start'
  | mk d cs, start, start', h, agree, inside => by
    by_cases leaf : cs = []
    · rw [spells_of_leaf (g := mk d cs) leaf] at h ⊢
      have same := agree.extract_eq h.2 (Nat.le_refl _)
      rw [Nat.add_sub_cancel_left] at same
      exact ⟨h.1.trans (congrArg _ same.symm), inside⟩
    · rw [spells_of_inner (g := mk d cs) leaf] at h ⊢
      obtain ⟨length, extent, below⟩ := h
      rw [length] at agree inside
      exact ⟨length, extent, SpellsIn.moved below agree inside⟩

theorem SpellsIn.moved {text text' : Text} : ∀ {gs : List Green} {start start' : Nat},
    SpellsIn text start gs → Text.Agree text start text' start' (start + spread gs) →
      start' + spread gs ≤ text'.size → SpellsIn text' start' gs
  | [], _, _, _, _, inside => spellsIn_nil.mpr inside
  | g :: gs, start, start', h, agree, inside => by
    obtain ⟨head, tail⟩ := spellsIn_cons.mp h
    rw [spread_cons, ← Nat.add_assoc] at agree inside
    refine spellsIn_cons.mpr ⟨Spells.moved head (agree.mono (Nat.le_add_right _ _)) (by omega), ?_⟩
    exact SpellsIn.moved tail (agree.behind g.length) inside

end

/-- A tree spells out a text if its leaves have the extents of their bytes and all else adds up. -/
theorem spells_of_leaves (joined : g.Joined) (inside : start + g.length ≤ text.size)
    (leaves : ∀ o m, g.Holds o m → m.children = [] →
      m.extent = Point.extentOf (text.extract (start + o) (start + o + m.length))) :
    g.Spells text start :=
  spells_iff_laid.mpr (laid_of_leaves joined inside leaves)

end Spells

end Green

end Glr
