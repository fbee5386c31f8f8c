import Glr.Proofs.Building

/-!
# Trees whose lengths add up

Only a leaf has a length of its own; in a tree that is `Summed` every other node is as long as its
children together.  In a tree that is `Measured`, moreover, no node stands for the end of the text,
which is a token that is looked at and never pushed.  Whatever stands in such a tree stands within
it.

All builders keep this, and so does an edit: it gives a new length to leaves, and adds up anew what
is above them.  It asks nothing of the edit, which may describe any change of any text.
-/

namespace Glr

namespace Green

/-- The lengths in a tree add up. -/
inductive Summed : Green → Prop where
  | intro {g : Green} (below : ∀ c ∈ g.children, Summed c)
      (length : g.children ≠ [] → g.length = spread g.children) : Summed g

theorem Summed.of_mem {g : Green} : g.Summed → ∀ c ∈ g.children, c.Summed
  | intro below _ => below

theorem Summed.length_eq {g : Green} : g.Summed → g.children ≠ [] → g.length = spread g.children
  | intro _ length => length

theorem Summed.spread_le {g : Green} (summed : g.Summed) : spread g.children ≤ g.length := by
  by_cases leaf : g.children = []
  · rw [leaf]
    exact Nat.zero_le _
  · exact Nat.le_of_eq (summed.length_eq leaf).symm

/-- What stands in a tree stands within it. -/
theorem Summed.of_holds {root g : Green} {start : Nat} (summed : root.Summed)
    (held : root.Holds start g) : g.Summed ∧ start + g.length ≤ root.length := by
  induction held with
  | root => exact ⟨summed, by omega⟩
  | @child start g c before after above among ih =>
    obtain ⟨inner, within⟩ := ih
    refine ⟨inner.of_mem c (by simp [among]), ?_⟩
    have length := inner.length_eq (by simp [among])
    rw [among, spread_append, spread_cons] at length
    omega

/-- The lengths in a tree add up, and no node of it is the end of the text. -/
inductive Measured : Green → Prop where
  | intro {g : Green} (below : ∀ c ∈ g.children, Measured c)
      (length : g.children ≠ [] → g.length = spread g.children)
      (symbol : g.symbol ≠ Symbol.endOfText) : Measured g

namespace Measured

variable {g : Green}

theorem of_mem : g.Measured → ∀ c ∈ g.children, c.Measured
  | intro below _ _ => below

theorem length_eq : g.Measured → g.children ≠ [] → g.length = spread g.children
  | intro _ length _ => length

theorem symbol_ne : g.Measured → g.symbol ≠ Symbol.endOfText
  | intro _ _ symbol => symbol

theorem summed (measured : g.Measured) : g.Summed := by
  induction measured with
  | intro _ length _ ih => exact .intro ih length

theorem of_spread (below : ∀ c ∈ g.children, c.Measured) (length : g.length = spread g.children)
    (symbol : g.symbol ≠ Symbol.endOfText) : g.Measured :=
  intro below (fun _ => length) symbol

theorem of_leaf (leaf : g.children = []) (symbol : g.symbol ≠ Symbol.endOfText) : g.Measured :=
  intro (fun _ hc => absurd (leaf ▸ hc) List.not_mem_nil) (absurd leaf) symbol

/-- What stands in a tree stands within it. -/
theorem of_holds {root : Green} {start : Nat} (measured : root.Measured)
    (held : root.Holds start g) : g.Measured ∧ start + g.length ≤ root.length := by
  refine ⟨?_, (measured.summed.of_holds held).2⟩
  induction held with
  | root => exact measured
  | child above among ih => exact ih.of_mem _ (by simp [among])

end Measured

end Green

namespace Repair

theorem spread_flatten {gs : List Green} (summed : ∀ g ∈ gs, g.Summed) :
    Green.spread (flatten gs) = Green.spread gs := by
  induction gs with
  | nil => rfl
  | cons g gs ih =>
    have rest := ih fun h hh => summed h (List.mem_cons_of_mem g hh)
    rcases flatten_cons g gs with ⟨-, some, opened⟩ | kept
    · rw [opened, Green.spread_append, rest, Green.spread_cons,
        (summed g List.mem_cons_self).length_eq some]
    · rw [kept, Green.spread_cons, Green.spread_cons, rest]

theorem measured_errorNode {gs : List Green} (measured : ∀ g ∈ gs, g.Measured) :
    (errorNode gs).value.Measured ∧ (errorNode gs).value.length = Green.spread gs := by
  refine ⟨.of_spread (fun c hc => ?_) (by simp) (by simp [Symbol.error, Symbol.endOfText]), ?_⟩
  · rcases mem_of_mem_flatten hc with hc | ⟨g, hg, -, hc⟩
    · exact measured c hc
    · exact (measured g hg).of_mem c hc
  · rw [length_errorNode, spread_flatten fun g hg => (measured g hg).summed]

theorem measured_errorLeaf (text : Text) : (errorLeaf text).Measured :=
  .of_leaf rfl (by simp [Symbol.error, Symbol.endOfText])

end Repair

/-! ## Edits -/

namespace Green

section Edit

variable (d : DocumentEdit)

theorem measured_editLeaf {g : Green} (leaf : g.children = []) (h : g.Measured) (appended : Bool)
    (start : Nat) (position : Point) : (editLeaf d appended start position g).value.Measured :=
  .of_leaf leaf h.symbol_ne

mutual

theorem measured_editAt : ∀ (g : Green) (appended : Bool) (start : Nat) (position : Point),
    g.Measured → (editAt d appended start position g).value.1.Measured
  | .mk data cs, appended, start, position, h => by
    rw [editAt, Checked.value_bind]
    split
    · exact h
    · split
      · next leaf =>
        exact measured_editLeaf d (g := mk data cs) (List.isEmpty_iff.mp leaf) h _ _ _
      · refine .of_spread ?_ (by simp) h.symbol_ne
        exact measured_editChildren cs appended start position h.of_mem

theorem measured_editChildren : ∀ (gs : List Green) (appended : Bool) (start : Nat)
    (position : Point), (∀ g ∈ gs, g.Measured) →
      ∀ g ∈ (editChildren d appended start position gs).value.1, g.Measured
  | [], _, _, _, _ => by
    rw [editChildren]
    exact fun _ hg => absurd hg List.not_mem_nil
  | g :: gs, appended, start, position, h => by
    rw [editChildren]
    intro c hc
    rcases List.mem_cons.mp hc with rfl | hc
    · exact measured_editAt g appended start position (h g List.mem_cons_self)
    · exact measured_editChildren gs _ _ _ (fun g' hg => h g' (List.mem_cons_of_mem g hg)) c hc

end

end Edit

/-- An edit keeps a tree measured. -/
theorem Measured.edit {g : Green} (h : g.Measured) (e : TextEdit) : (g.edit e).value.Measured :=
  measured_editAt _ g false 0 Point.zero h

end Green

end Glr
