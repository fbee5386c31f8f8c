import Glr.Proofs.Laid
import Glr.Proofs.Spread

/-!
# What trees hand down

Reductions and repairs put nodes over trees that are there already.  So a property holds of all
trees on a stack if a tree hands it down to its children, if a node has it that is put over trees
that have it and is as long and as wide as they are (`Green.Hereditary`), and if it held of the old
tree, of every token and of every error leaf.  An edit changes leaves, but only to resize them, and
puts the nodes above together anew.
-/

namespace Glr

namespace Green

/-- A property that a tree hands down to its children, and that a node has that is put over trees
that have it and is as long and as wide as they are. -/
structure Hereditary (P : Green → Prop) : Prop where
  down : ∀ {g : Green}, P g → ∀ c ∈ g.children, P c
  up : ∀ {g : Green}, (∀ c ∈ g.children, P c) → g.length = spread g.children →
    g.extent = stretch g.children → P g

variable {P : Green → Prop}

theorem hereditary_joined : Hereditary Joined :=
  ⟨fun | .intro below _ _ => below, fun below length extent =>
    .intro below (fun _ => length) fun _ => extent⟩

namespace Hereditary

variable (her : Hereditary P)

include her

theorem of_holds {root g : Green} {start : Nat} (h : P root) (held : root.Holds start g) : P g := by
  induction held with
  | root => exact h
  | child above among ih => exact her.down ih _ (by simp [among])

theorem errorNode {gs : List Green} (h : ∀ g ∈ gs, P g) : P (Repair.errorNode gs).value := by
  refine her.up (fun c hc => ?_) (by simp) (Green.extent_node _ _)
  rcases Repair.mem_of_mem_flatten hc with hc | ⟨g, hg, -, hc⟩
  · exact h c hc
  · exact her.down (h g hg) c hc

end Hereditary

/-! ## Edits -/

section Edit

variable (d : DocumentEdit)

mutual

theorem hereditary_editAt (her : Hereditary P) (resized : ∀ (g : Green) (length : Nat)
    (extent : Point), g.children = [] → P (g.resized length extent NodeFlags.onlyDamaged)) :
    ∀ (g : Green) (appended : Bool) (start : Nat) (position : Point),
      P g → P (editAt d appended start position g).value.1
  | .mk data cs, appended, start, position, h => by
    rw [editAt, Checked.value_bind]
    split
    · exact h
    · split
      · next leaf => exact resized _ _ _ (List.isEmpty_iff.mp leaf)
      · refine her.up ?_ (by simp) (by simp)
        exact hereditary_editChildren her resized cs appended start position (her.down h)

theorem hereditary_editChildren (her : Hereditary P) (resized : ∀ (g : Green) (length : Nat)
    (extent : Point), g.children = [] → P (g.resized length extent NodeFlags.onlyDamaged)) :
    ∀ (gs : List Green) (appended : Bool) (start : Nat) (position : Point),
      (∀ g ∈ gs, P g) → ∀ g ∈ (editChildren d appended start position gs).value.1, P g
  | [], _, _, _, _ => by
    rw [editChildren]
    exact fun _ hg => absurd hg List.not_mem_nil
  | g :: gs, appended, start, position, h => by
    rw [editChildren]
    obtain ⟨own, rest⟩ := List.forall_mem_cons.mp h
    exact List.forall_mem_cons.mpr ⟨hereditary_editAt her resized g appended start position own,
      hereditary_editChildren her resized gs _ _ _ rest⟩

end

end Edit

theorem Joined.of_leaf {g : Green} (leaf : g.children = []) : g.Joined :=
  .intro (fun _ hc => absurd (leaf ▸ hc) List.not_mem_nil) (absurd leaf) (absurd leaf)

/-- An edit keeps the lengths and the extents of a tree adding up. -/
theorem Joined.edit {g : Green} (h : g.Joined) (e : TextEdit) : (g.edit e).value.Joined :=
  hereditary_editAt _ hereditary_joined (fun _ _ _ leaf => .of_leaf leaf) g false 0 Point.zero h

end Green

/-! ## Parses -/

section Parse

variable {P : Green → Prop} {task : ParseTask} {old : Option Green} {root : Green} {r : Run}
  (her : Green.Hereditary P) (error : ∀ text, P (Repair.errorLeaf text))
  (token : ∀ (la : Lookahead) (r : Run) (state : StateId) (flags : NodeFlags),
    Ahead task old la → P (r.makeLeaf la state flags).1)
  (before : ∀ root ∈ old, P root)

include her

theorem hereditary_skip {s : Stack} {leaf : Green} {stop : Position} {cost : Nat}
    (h : ∀ e ∈ s.entries, P e.node) (own : P leaf) :
    ∀ e ∈ (Repair.skip s leaf stop cost).value.entries, P e.node := by
  refine Repair.forall_mem_skip h fun takes inside => her.errorNode ?_
  exact List.forall_mem_append.mpr
    ⟨takes.forall_mem her.down inside, List.forall_mem_singleton.mpr own⟩

include error token before

/-- What the old tree and all tokens have, all trees on a stack have. -/
theorem built_hereditary {offset : Nat} {entries : List StackEntry}
    (built : Built task old offset entries) : ∀ e ∈ entries, P e.node := by
  have push {e : StackEntry} {es : List StackEntry} (own : P e.node)
      (h : ∀ e ∈ es, P e.node) : ∀ f ∈ e :: es, P f.node :=
    List.forall_mem_cons.mpr ⟨own, h⟩
  induction built with
  | start => exact fun _ he => absurd he List.not_mem_nil
  | reduce ahead built action reduced ih =>
    refine (Stack.reduces_of_reduce? reduced).forall_mem ih (fun _ _ h => h) ?_
    intro taken below p target lookahead fragile known inside below
    exact her.up (forall_mem_nodesOf.mpr inside) (by simp) (by simp)
  | extra r state fragile ahead built free ih => exact push (token _ r state _ ahead) ih
  | shift r state fragile ahead built action ih => exact push (token _ r state _ ahead) ih
  | subtree ahead built fitting ih =>
    obtain ⟨root, hroot, held⟩ := fitting.held
    exact push (her.of_holds (before root hroot) held) ih
  | missing ahead built action ih =>
    exact push (her.up (fun c hc => absurd hc List.not_mem_nil) rfl rfl) ih
  | wrap built wrapped ih =>
    exact Repair.forall_mem_wrap wrapped ih fun inside =>
      her.errorNode (forall_mem_nodesOf.mpr inside)
  | skip r state cost ahead built notEnd ih =>
    exact hereditary_skip her ih (token _ r state NodeFlags.none ahead)
  | rest cost ahead built all ih => exact hereditary_skip her ih (all ▸ error _)

/-- So has the root that a parse comes to. -/
theorem hereditary_of_ending (ending : Run.Ending task old root r) : P root := by
  have wrapped {r : Run} (problem : Problem) (h : ∀ s ∈ r.live, ∀ e ∈ s.entries, P e.node) :
      P (r.wrapRemains task problem).1 := by
    refine her.errorNode fun c hc => ?_
    rcases Run.mem_remains hc with ⟨s, hs, e, he, rfl⟩ | ⟨text, rfl⟩
    · exact h s hs e he
    · exact error text
  have stack {offset : Nat} {entries : List StackEntry}
      (built : Built task old offset entries) : ∀ e ∈ entries, P e.node :=
    built_hereditary her error token before built
  cases ending with
  | @accepted s _ _ ahead atEnd built accepts quiet =>
    have nodes : ∀ c ∈ nodesOf s.entries, P c := forall_mem_nodesOf.mpr (stack built)
    rcases Run.accept_cases task.language s with
      error | ⟨front, main, after, entries, -, -, -, ⟨-, root⟩ | root⟩
    · exact error ▸ her.errorNode nodes
    · rw [root]
      exact stack built main (by rw [← List.mem_reverse, entries]; simp)
    · have known : ∀ e ∈ front ++ main :: after, P e.node := by
        intro e he
        exact stack built e (by rw [← List.mem_reverse, entries]; exact he)
      rw [root]
      refine her.up (fun c hc => ?_) (by simp) (by simp)
      simp only [Green.children_withChildren, List.mem_append, List.mem_map] at hc
      rcases hc with (⟨e, he, rfl⟩ | hc) | ⟨e, he, rfl⟩
      · exact known e (by simp [he])
      · exact her.down (known main (by simp)) c hc
      · exact known e (by simp [he])
  | wrapped built alive => exact wrapped _ fun s hs => stack (built s hs)
  | stranded none built =>
    exact wrapped _ fun s hs => absurd (show s ∈ [] from none ▸ hs) List.not_mem_nil

end Parse

end Glr
