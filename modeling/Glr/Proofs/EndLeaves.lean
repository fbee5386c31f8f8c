import Glr.Proofs.Hereditary

/-!
# What holds of every leaf

A property of leaves holds all over a tree (`Green.Leafwise`) if it held of the old tree, of every
token and of every error leaf, and of whatever is empty: a node over nothing is a leaf of no length.
An edit resizes leaves, and marks those that it resizes.

This is used for the leaves that stand for the end of the text.  A parser may shift the end if its
tables say so, so that such leaves are in its trees; but they are empty (`Green.EndsEmpty`), and so
they are never taken for a token again.
-/

namespace Glr

namespace Green

/-- A property of all leaves of a tree. -/
inductive Leafwise (P : Green → Prop) : Green → Prop where
  | intro {g : Green} (below : ∀ c ∈ g.children, Leafwise P c) (leaf : g.children = [] → P g) :
      Leafwise P g

/-- A property of every leaf that is empty. -/
def HoldsOfEmpty (P : Green → Prop) : Prop := ∀ g : Green, g.children = [] → g.length = 0 → P g

namespace Leafwise

variable {P : Green → Prop} {g : Green}

theorem of_mem : g.Leafwise P → ∀ c ∈ g.children, c.Leafwise P
  | intro below _ => below

theorem of_leaf (leaf : g.children = []) (h : P g) : g.Leafwise P :=
  intro (fun _ hc => absurd (leaf ▸ hc) List.not_mem_nil) fun _ => h

theorem here : g.Leafwise P → g.children = [] → P g
  | intro _ leaf => leaf

/-- A node over trees is as long as they are, so that it is empty where there are none. -/
theorem hereditary (empty : HoldsOfEmpty P) : Hereditary (Leafwise P) :=
  ⟨of_mem, fun {g} below length _ =>
    intro below fun leaf => empty g leaf (by rw [length, leaf, spread_nil])⟩

end Leafwise

/-! ## The end of the text -/

/-- A leaf that stands for the end of the text is empty, unless an edit has resized it. -/
def EndEmpty (g : Green) : Prop :=
  g.symbol = Symbol.endOfText → g.length = 0 ∨ g.isDamaged = true

/-- The ends of the text in a tree are empty. -/
def EndsEmpty (g : Green) : Prop := g.Leafwise EndEmpty

theorem hereditary_endsEmpty : Hereditary EndsEmpty :=
  Leafwise.hereditary fun _ _ length _ => Or.inl length

theorem EndsEmpty.edit {g : Green} (h : g.EndsEmpty) (e : TextEdit) :
    (g.edit e).value.EndsEmpty := by
  refine hereditary_editAt _ hereditary_endsEmpty (fun g length extent leaf => ?_) g false 0
    Point.zero h
  have leaf : (g.resized length extent NodeFlags.onlyDamaged).children = [] := leaf
  refine .of_leaf leaf fun _ => Or.inr ?_
  show (g.flags.damaged || true) = true
  exact Bool.or_true _

end Green

end Glr
