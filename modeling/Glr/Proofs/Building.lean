import Glr.Parser.Repair
import Glr.Proofs.OldTree
import Glr.Tree.Edit

/-!
# What the builders build

Children, symbol, production, length and flags of every node that is made or copied, each as a rule
for `simp`.  No proof needs to look into a builder again.  An error over trees comes with the rules
that take its children apart: its text is that of the trees, and what holds of the trees and of all
that is inside them holds of its children.
-/

namespace Glr

namespace NodeFlags

@[simp] theorem union_hasError (f g : NodeFlags) :
    (f.union g).hasError = (f.hasError || g.hasError) := rfl

@[simp] theorem union_extra (f g : NodeFlags) : (f.union g).extra = (f.extra || g.extra) := rfl

@[simp] theorem union_missing (f g : NodeFlags) :
    (f.union g).missing = (f.missing || g.missing) := rfl

theorem union_eq_of_contains {f g : NodeFlags} (h : f.contains g = true) : f.union g = f := by
  obtain ⟨a, b, c, d, e⟩ := f
  simp only [contains, intersection, beq_iff_eq] at h
  rw [← h]
  simp only [union, NodeFlags.mk.injEq, Bool.or_eq_left_iff_imp, Bool.and_eq_true]
  exact ⟨fun h => h.1, fun h => h.1, fun h => h.1, fun h => h.1, fun h => h.1⟩

end NodeFlags

namespace Green

theorem children_ne_nil {g : Green} (inner : g.isLeaf = false) : g.children ≠ [] := by
  intro none
  rw [isLeaf, none] at inner
  cases inner

/-! ## Leaves -/

section Leaf

variable (spec : LeafSpec)

@[simp] theorem children_leaf : (leaf spec).children = [] := rfl

@[simp] theorem symbol_leaf : (leaf spec).symbol = spec.symbol := rfl

@[simp] theorem length_leaf : (leaf spec).length = spec.length := rfl

@[simp] theorem production_leaf : (leaf spec).production = none := rfl

@[simp] theorem isExtra_leaf : (leaf spec).isExtra = spec.flags.extra := rfl

@[simp] theorem isMissing_leaf : (leaf spec).isMissing = spec.flags.missing := rfl

@[simp] theorem hasError_leaf : (leaf spec).hasError =
    (spec.flags.hasError || (spec.symbol == Symbol.error || spec.flags.missing)) := rfl

end Leaf

/-! ## Inner nodes -/

theorem value_totalLength (gs : List Green) : (totalLength gs).value = spread gs := by
  have walk : ∀ (gs : List Green) (n : Nat),
      (gs.foldlM (fun n g => Size.add n g.length) n).value = n + spread gs := by
    intro gs
    induction gs with
    | nil => exact fun n => rfl
    | cons g gs ih =>
      intro n
      rw [List.foldlM_cons, Checked.value_bind, ih, Size.value_add, spread_cons, Nat.add_assoc]
  rw [totalLength, walk, Nat.zero_add]

theorem inheritedFlags_eq (gs : List Green) :
    (inheritedFlags gs).hasError = gs.any (·.hasError) ∧ (inheritedFlags gs).extra = false ∧
      (inheritedFlags gs).missing = false := by
  have walk : ∀ (gs : List Green) (f : NodeFlags),
      (gs.foldl (fun f g => f.union g.flags.inherited) f).hasError =
          (f.hasError || gs.any (·.hasError)) ∧
        (gs.foldl (fun f g => f.union g.flags.inherited) f).extra = f.extra ∧
        (gs.foldl (fun f g => f.union g.flags.inherited) f).missing = f.missing := by
    intro gs
    induction gs with
    | nil => exact fun f => ⟨(Bool.or_false _).symm, rfl, rfl⟩
    | cons g gs ih =>
      intro f
      obtain ⟨error, extra, missing⟩ := ih (f.union g.flags.inherited)
      refine ⟨?_, ?_, ?_⟩
      · rw [List.foldl_cons, error, List.any_cons, ← Bool.or_assoc]
        rfl
      · rw [List.foldl_cons, extra]
        exact Bool.or_false _
      · rw [List.foldl_cons, missing]
        exact Bool.or_false _
  exact walk gs NodeFlags.none

section Node

variable (spec : NodeSpec) (cs : List Green)

@[simp] theorem children_node : (node spec cs).value.children = cs := rfl

@[simp] theorem symbol_node : (node spec cs).value.symbol = spec.symbol := rfl

@[simp] theorem production_node : (node spec cs).value.production = spec.production := rfl

@[simp] theorem length_node : (node spec cs).value.length = spread cs := value_totalLength cs

@[simp] theorem isExtra_node : (node spec cs).value.isExtra = spec.flags.extra := by
  show (spec.flags.extra || (inheritedFlags cs).extra) = _
  rw [(inheritedFlags_eq cs).2.1, Bool.or_false]

@[simp] theorem isMissing_node : (node spec cs).value.isMissing = spec.flags.missing := by
  show (spec.flags.missing || (inheritedFlags cs).missing) = _
  rw [(inheritedFlags_eq cs).2.2, Bool.or_false]

@[simp] theorem hasError_node : (node spec cs).value.hasError =
    (spec.flags.hasError || cs.any (·.hasError) || spec.symbol == Symbol.error) := by
  show ((spec.flags.hasError || (inheritedFlags cs).hasError) || _) = _
  rw [(inheritedFlags_eq cs).1]

end Node

/-! ## Copies -/

section Copies

variable (g : Green) (f : NodeFlags) (cs : List Green)

@[simp] theorem children_withFlags : (g.withFlags f).children = g.children := by
  rw [withFlags]
  split <;> rfl

@[simp] theorem symbol_withFlags : (g.withFlags f).symbol = g.symbol := by
  rw [withFlags]
  split <;> rfl

@[simp] theorem length_withFlags : (g.withFlags f).length = g.length := by
  rw [withFlags]
  split <;> rfl

@[simp] theorem extent_withFlags : (g.withFlags f).extent = g.extent := by
  rw [withFlags]
  split <;> rfl

@[simp] theorem production_withFlags : (g.withFlags f).production = g.production := by
  rw [withFlags]
  split <;> rfl

@[simp] theorem flags_withFlags : (g.withFlags f).flags = g.flags.union f := by
  rw [withFlags]
  split
  · next h => exact (NodeFlags.union_eq_of_contains h).symm
  · rfl

@[simp] theorem children_withChildren : (g.withChildren cs f).value.children = cs := rfl

@[simp] theorem symbol_withChildren : (g.withChildren cs f).value.symbol = g.symbol := rfl

@[simp] theorem production_withChildren :
    (g.withChildren cs f).value.production = g.production := rfl

@[simp] theorem length_withChildren : (g.withChildren cs f).value.length = spread cs :=
  value_totalLength cs

@[simp] theorem isExtra_withChildren :
    (g.withChildren cs f).value.isExtra = (f.extra || g.isExtra) := by
  show ((f.extra || g.flags.extra) || (inheritedFlags cs).extra) = _
  rw [(inheritedFlags_eq cs).2.1, Bool.or_false]
  rfl

@[simp] theorem isMissing_withChildren :
    (g.withChildren cs f).value.isMissing = (f.missing || g.isMissing) := by
  show ((f.missing || g.flags.missing) || (inheritedFlags cs).missing) = _
  rw [(inheritedFlags_eq cs).2.2, Bool.or_false]
  rfl

@[simp] theorem hasError_withChildren :
    (g.withChildren cs f).value.hasError = (f.hasError || g.hasError || cs.any (·.hasError)) := by
  show ((f.hasError || g.flags.hasError) || (inheritedFlags cs).hasError) = _
  rw [(inheritedFlags_eq cs).1]
  rfl

end Copies

end Green

/-! ## Errors -/

namespace Repair

@[simp] theorem children_errorNode (cs : List Green) :
    (errorNode cs).value.children = flatten cs := rfl

@[simp] theorem symbol_errorNode (cs : List Green) :
    (errorNode cs).value.symbol = Symbol.error := rfl

@[simp] theorem production_errorNode (cs : List Green) :
    (errorNode cs).value.production = none := rfl

@[simp] theorem hasError_errorNode (cs : List Green) : (errorNode cs).value.hasError = true := by
  simp [errorNode, Green.hasError_node]

@[simp] theorem length_errorNode (cs : List Green) :
    (errorNode cs).value.length = Green.spread (flatten cs) := Green.length_node _ _

/-- The first tree is taken apart, or it stays. -/
theorem flatten_cons (g : Green) (gs : List Green) :
    (g.isError = true ∧ g.children ≠ [] ∧ flatten (g :: gs) = g.children ++ flatten gs) ∨
      flatten (g :: gs) = g :: flatten gs := by
  rw [flatten]
  split
  · next wrong =>
    rw [Bool.and_eq_true, Bool.not_eq_true'] at wrong
    exact Or.inl ⟨wrong.1, Green.children_ne_nil wrong.2, rfl⟩
  · exact Or.inr rfl

/-- What is inside an error is one of the trees or is inside one of them. -/
theorem mem_of_mem_flatten {cs : List Green} {c : Green} (h : c ∈ flatten cs) :
    c ∈ cs ∨ ∃ g ∈ cs, g.isError = true ∧ c ∈ g.children := by
  induction cs with
  | nil => exact absurd h List.not_mem_nil
  | cons g gs ih =>
    have later (h : c ∈ flatten gs) :
        c ∈ g :: gs ∨ ∃ f ∈ g :: gs, f.isError = true ∧ c ∈ f.children :=
      (ih h).imp (List.mem_cons_of_mem g) fun ⟨f, hf, inside⟩ =>
        ⟨f, List.mem_cons_of_mem g hf, inside⟩
    rcases flatten_cons g gs with ⟨wrong, -, opened⟩ | kept
    · rcases List.mem_append.mp (opened ▸ h) with h | h
      · exact Or.inr ⟨g, List.mem_cons_self, wrong, h⟩
      · exact later h
    · rcases List.mem_cons.mp (kept ▸ h) with rfl | h
      · exact Or.inl List.mem_cons_self
      · exact later h

@[simp] theorem children_errorLeaf (text : Text) : (errorLeaf text).children = [] := rfl

@[simp] theorem symbol_errorLeaf (text : Text) : (errorLeaf text).symbol = Symbol.error := rfl

@[simp] theorem length_errorLeaf (text : Text) : (errorLeaf text).length = Size.ofText text := rfl

@[simp] theorem production_errorLeaf (text : Text) : (errorLeaf text).production = none := rfl

@[simp] theorem hasError_errorLeaf (text : Text) : (errorLeaf text).hasError = true := rfl

end Repair

end Glr
