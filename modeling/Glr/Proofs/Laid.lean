import Glr.Proofs.Extents
import Glr.Proofs.OldTree

/-!
# Trees laid out from an offset on

Leaves that stand side by side cut a text into pieces.  What is known of the places where they cut
it, and of a leaf at its place, is known of a whole tree if it is of all leaves, and if every other
node is as long and as wide as its children together (`Green.Laid`).  A tree is put together from
trees that are laid out, and is taken apart into such, wherever they stand.

What that is used for is the extent of each leaf, which is that of its bytes, and the places between
characters, which are the only ones where a text is cut.
-/

namespace Glr

namespace Green

/-- The extent of trees side by side. -/
def stretch : List Green → Point
  | [] => Point.zero
  | g :: gs => g.extent.advance (stretch gs)

@[simp] theorem stretch_nil : stretch [] = Point.zero := rfl

@[simp] theorem stretch_cons (g : Green) (gs : List Green) :
    stretch (g :: gs) = g.extent.advance (stretch gs) := rfl

theorem stretch_append (gs hs : List Green) :
    stretch (gs ++ hs) = (stretch gs).advance (stretch hs) := by
  induction gs with
  | nil => exact (Point.zero_advance _).symm
  | cons g gs ih => rw [List.cons_append, stretch_cons, ih, stretch_cons, Point.advance_assoc]

theorem value_totalExtent (gs : List Green) : (totalExtent gs).value = stretch gs := by
  have walk : ∀ (gs : List Green) (p : Point),
      (gs.foldlM (fun p g => p.advanceChecked g.extent) p : Checked Point).value =
        p.advance (stretch gs) := by
    intro gs
    induction gs with
    | nil => exact fun p => (Point.advance_zero p).symm
    | cons g gs ih => exact fun p => (ih (p.advance g.extent)).trans (Point.advance_assoc _ _ _)
  exact (walk gs Point.zero).trans (Point.zero_advance _)

@[simp] theorem extent_node (spec : NodeSpec) (cs : List Green) :
    (node spec cs).value.extent = stretch cs := value_totalExtent cs

@[simp] theorem extent_withChildren (g : Green) (cs : List Green) (f : NodeFlags) :
    (g.withChildren cs f).value.extent = stretch cs := value_totalExtent cs

/-- Every node of a tree that is no leaf is as long and as wide as its children together. -/
inductive Joined : Green → Prop where
  | intro {g : Green} (below : ∀ c ∈ g.children, Joined c)
      (length : g.children ≠ [] → g.length = spread g.children)
      (extent : g.children ≠ [] → g.extent = stretch g.children) : Joined g

theorem Joined.summed {g : Green} (joined : g.Joined) : g.Summed := by
  induction joined with
  | intro _ length _ ih => exact .intro ih length

mutual

/-- From an offset on a tree cuts the text at places that are known, and each leaf of it is what it
should be at its place. -/
def Laid (cut : Nat → Prop) (good : Nat → Green → Prop) (start : Nat) : Green → Prop
  | mk d cs =>
    (cs = [] → good start (mk d cs) ∧ cut (start + d.length)) ∧
    (cs ≠ [] → d.length = spread cs ∧ d.extent = stretch cs) ∧ LaidIn cut good start cs

/-- The same for trees side by side. -/
def LaidIn (cut : Nat → Prop) (good : Nat → Green → Prop) (start : Nat) : List Green → Prop
  | [] => cut start
  | g :: gs => Laid cut good start g ∧ LaidIn cut good (start + g.length) gs

end

-- Where the tree is the result of a parse, to look into them is to run the parse.
attribute [irreducible] Laid LaidIn

/-- An empty leaf is what it should be wherever the text may be cut. -/
def GoodOfEmpty (cut : Nat → Prop) (good : Nat → Green → Prop) : Prop :=
  ∀ (o : Nat) (g : Green), cut o → g.children = [] → g.length = 0 → g.extent = Point.zero → good o g

section Laid

variable {cut : Nat → Prop} {good : Nat → Green → Prop} {start : Nat} {g : Green}
  {gs hs : List Green}

theorem laidIn_nil : LaidIn cut good start [] ↔ cut start := by rw [LaidIn]

theorem laidIn_cons : LaidIn cut good start (g :: gs) ↔
    g.Laid cut good start ∧ LaidIn cut good (start + g.length) gs := by rw [LaidIn]

theorem laid_of_leaf (leaf : g.children = []) :
    g.Laid cut good start ↔ cut start ∧ good start g ∧ cut (start + g.length) := by
  obtain ⟨d, cs⟩ := g
  obtain rfl : cs = [] := leaf
  rw [Laid, LaidIn]
  exact ⟨fun h => ⟨h.2.2, h.1 rfl⟩, fun h => ⟨fun _ => h.2, absurd rfl, h.1⟩⟩

theorem laid_of_inner (inner : g.children ≠ []) :
    g.Laid cut good start ↔ g.length = spread g.children ∧ g.extent = stretch g.children ∧
      LaidIn cut good start g.children := by
  obtain ⟨d, cs⟩ := g
  rw [Laid]
  exact ⟨fun h => ⟨(h.2.1 inner).1, (h.2.1 inner).2, h.2.2⟩,
    fun h => ⟨fun none => absurd none inner, fun _ => ⟨h.1, h.2.1⟩, h.2.2⟩⟩

theorem Laid.below (h : g.Laid cut good start) : LaidIn cut good start g.children := by
  obtain ⟨d, cs⟩ := g
  rw [Laid] at h
  exact h.2.2

/-- A node over trees that are laid out is laid out; over none it is an empty leaf. -/
theorem laid_of_children (empty : GoodOfEmpty cut good) (length : g.length = spread g.children)
    (extent : g.extent = stretch g.children) (below : LaidIn cut good start g.children) :
    g.Laid cut good start := by
  by_cases leaf : g.children = []
  · rw [leaf] at length extent below
    rw [laid_of_leaf leaf, length, spread_nil, Nat.add_zero]
    have here := laidIn_nil.mp below
    exact ⟨here, empty start g here leaf length extent, here⟩
  · exact (laid_of_inner leaf).mpr ⟨length, extent, below⟩

mutual

theorem Laid.start : ∀ {g : Green} {start : Nat}, g.Laid cut good start → cut start
  | mk _ cs, start, h =>
    have below : LaidIn cut good start cs := h.below
    LaidIn.start below

theorem LaidIn.start : ∀ {gs : List Green} {start : Nat}, LaidIn cut good start gs → cut start
  | [], _, h => laidIn_nil.mp h
  | _ :: _, _, h => Laid.start (laidIn_cons.mp h).1

end

mutual

theorem Laid.stop : ∀ {g : Green} {start : Nat}, g.Laid cut good start → cut (start + g.length)
  | mk d cs, start, h => by
    by_cases leaf : cs = []
    · exact ((laid_of_leaf (g := mk d cs) leaf).mp h).2.2
    · obtain ⟨length, -, below⟩ := (laid_of_inner (g := mk d cs) leaf).mp h
      rw [length]
      exact LaidIn.stop (show LaidIn cut good start cs from below)

theorem LaidIn.stop : ∀ {gs : List Green} {start : Nat}, LaidIn cut good start gs →
    cut (start + spread gs)
  | [], _, h => laidIn_nil.mp h
  | g :: gs, start, h => by
    rw [spread_cons, ← Nat.add_assoc]
    exact LaidIn.stop (laidIn_cons.mp h).2

end

theorem laidIn_append : LaidIn cut good start (gs ++ hs) ↔
    LaidIn cut good start gs ∧ LaidIn cut good (start + spread gs) hs := by
  induction gs generalizing start with
  | nil =>
    rw [List.nil_append, spread_nil, Nat.add_zero, laidIn_nil]
    exact (and_iff_right_of_imp LaidIn.start).symm
  | cons g gs ih =>
    rw [List.cons_append, laidIn_cons, ih, laidIn_cons, spread_cons, and_assoc, Nat.add_assoc]

mutual

theorem Laid.joined : ∀ {g : Green} {start : Nat}, g.Laid cut good start → g.Joined
  | mk d cs, start, h => by
    have below : ∀ c ∈ cs, c.Joined := LaidIn.joined h.below
    refine .intro below (fun inner => ?_) fun inner => ?_
    · exact ((laid_of_inner (g := mk d cs) inner).mp h).1
    · exact ((laid_of_inner (g := mk d cs) inner).mp h).2.1

theorem LaidIn.joined : ∀ {gs : List Green} {start : Nat}, LaidIn cut good start gs →
    ∀ g ∈ gs, g.Joined
  | [], _, _ => fun _ hg => absurd hg List.not_mem_nil
  | g :: gs, start, h => by
    obtain ⟨head, tail⟩ := laidIn_cons.mp h
    exact List.forall_mem_cons.mpr ⟨Laid.joined head, LaidIn.joined tail⟩

end

theorem Laid.length_eq (h : g.Laid cut good start) (inner : g.children ≠ []) :
    g.length = spread g.children := h.joined.summed.length_eq inner

/-- What stands in a tree is laid out where it stands. -/
theorem Laid.of_holds {root n : Green} {o : Nat} (h : root.Laid cut good start)
    (held : root.Holds o n) : n.Laid cut good (start + o) := by
  induction held with
  | root => exact h
  | @child i g c before after above among ih =>
    have below := ih.below
    rw [among] at below
    rw [← Nat.add_assoc]
    exact (laidIn_cons.mp (laidIn_append.mp below).2).1

/-- Trees side by side are laid out in a text if each is that the leaves of which are what they
should be. -/
theorem laidIn_of_leaves {size : Nat} : ∀ {gs : List Green} {start : Nat},
    (∀ g ∈ gs, ∀ start, start + g.length ≤ size →
      (∀ o m, g.Holds o m → m.children = [] → good (start + o) m) →
      g.Laid (· ≤ size) good start) →
    start + spread gs ≤ size →
    (∀ o m, HoldsIn gs o m → m.children = [] → good (start + o) m) →
    LaidIn (· ≤ size) good start gs
  | [], _, _, inside, _ => laidIn_nil.mpr inside
  | g :: gs, start, each, inside, leaves => by
    rw [spread_cons, ← Nat.add_assoc] at inside
    have first := Nat.le_trans (Nat.le_add_right _ _) inside
    refine laidIn_cons.mpr ⟨each g List.mem_cons_self start first fun o m held =>
      leaves o m (.here held), ?_⟩
    refine laidIn_of_leaves (fun c hc => each c (List.mem_cons_of_mem g hc)) inside
      fun o m held leaf => ?_
    rw [Nat.add_assoc start]
    exact leaves _ m held.there leaf

/-- A tree that ends in a text is laid out there if its leaves are what they should be and all else
adds up. -/
theorem laid_of_leaves {size : Nat} (joined : g.Joined) (inside : start + g.length ≤ size)
    (leaves : ∀ o m, g.Holds o m → m.children = [] → good (start + o) m) :
    g.Laid (· ≤ size) good start := by
  induction joined generalizing start with
  | @intro g _ length extent ih =>
    by_cases leaf : g.children = []
    · exact (laid_of_leaf leaf).mpr
        ⟨Nat.le_trans (Nat.le_add_right _ _) inside, leaves 0 g .root leaf, inside⟩
    · refine (laid_of_inner leaf).mpr ⟨length leaf, extent leaf, ?_⟩
      refine laidIn_of_leaves (fun c hc start inside leaves => ih c hc inside leaves)
        (length leaf ▸ inside) fun o m held => leaves o m held.holds

end Laid

end Green

/-! ## Errors -/

namespace Repair

variable {cut : Nat → Prop} {good : Nat → Green → Prop} {start : Nat} {gs : List Green}

/-- An error that opens up the errors it is put over lays out what they did. -/
theorem laidIn_flatten (h : Green.LaidIn cut good start gs) :
    Green.LaidIn cut good start (flatten gs) := by
  induction gs generalizing start with
  | nil => exact h
  | cons g gs ih =>
    obtain ⟨head, tail⟩ := Green.laidIn_cons.mp h
    rcases flatten_cons g gs with ⟨-, some, opened⟩ | kept
    · rw [opened, Green.laidIn_append, ← head.length_eq some]
      exact ⟨head.below, ih tail⟩
    · rw [kept]
      exact Green.laidIn_cons.mpr ⟨head, ih tail⟩

theorem laid_errorNode (empty : Green.GoodOfEmpty cut good) (h : Green.LaidIn cut good start gs) :
    (errorNode gs).value.Laid cut good start :=
  Green.laid_of_children empty (length_errorNode gs) (Green.extent_node _ _) (laidIn_flatten h)

theorem spread_errorNode (h : Green.LaidIn cut good start gs) :
    (errorNode gs).value.length = Green.spread gs :=
  (length_errorNode gs).trans (spread_flatten fun g hg => (h.joined g hg).summed)

end Repair

end Glr
