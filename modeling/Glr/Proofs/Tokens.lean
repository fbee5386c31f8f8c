import Glr.Lexer.Token
import Glr.Proofs.Measured

/-!
# The tokens of a tree

The tokens of a tree are its leaves that are not empty, each at its offset.  They are a list, and
what a parse builds of trees it has built adds up in terms of it: a node has the tokens of its
children, trees side by side have theirs one after the other, and an error that opens up the errors
it is put over has the tokens that these had.

`HoldsIn` is `Holds` for trees side by side, and it takes `Holds` apart at the root: the rule of
that adds a level at the bottom, which is no help to an induction over the tree.
-/

namespace Glr

namespace Green

variable {root g n : Green} {gs hs : List Green} {start o : Nat}

/-! ## What stands in a tree -/

theorem Holds.trans {i : Nat} (outer : root.Holds o g) (inner : g.Holds i n) :
    root.Holds (o + i) n := by
  induction inner with
  | root => exact outer
  | child _ among ih => exact Nat.add_assoc .. ▸ ih.child among

/-- A node stands in one of several trees side by side, at an offset counted from the first. -/
inductive HoldsIn : List Green → Nat → Green → Prop where
  | here {g n : Green} {gs : List Green} {o : Nat} (held : g.Holds o n) : HoldsIn (g :: gs) o n
  | there {g n : Green} {gs : List Green} {o : Nat} (held : HoldsIn gs o n) :
      HoldsIn (g :: gs) (g.length + o) n

theorem holdsIn_singleton : HoldsIn [g] o n ↔ g.Holds o n := by
  refine ⟨fun held => ?_, .here⟩
  cases held with
  | here held => exact held
  | there held => cases held

theorem HoldsIn.of_append (held : HoldsIn (g :: hs) o n) :
    ∀ gs : List Green, HoldsIn (gs ++ g :: hs) (spread gs + o) n
  | [] => by
    rw [spread_nil, Nat.zero_add]
    exact held
  | h :: gs => by
    rw [spread_cons, Nat.add_assoc]
    exact (held.of_append gs).there

theorem HoldsIn.exists (held : HoldsIn gs o n) :
    ∃ before c after i, gs = before ++ c :: after ∧ c.Holds i n ∧ o = spread before + i := by
  induction held with
  | @here g n gs o held => exact ⟨[], g, gs, o, rfl, held, (Nat.zero_add o).symm⟩
  | @there g n gs o held ih =>
    obtain ⟨before, c, after, i, rfl, inner, rfl⟩ := ih
    exact ⟨g :: before, c, after, i, rfl, inner, (Nat.add_assoc ..).symm⟩

theorem HoldsIn.holds (held : HoldsIn g.children o n) : g.Holds o n := by
  obtain ⟨before, c, after, i, among, inner, rfl⟩ := held.exists
  have child := (Holds.root : g.Holds 0 g).child among
  rw [Nat.zero_add] at child
  exact child.trans inner

/-- What stands in a tree is the tree or stands in one of its children. -/
theorem Holds.cases_root (held : root.Holds o n) :
    o = 0 ∧ n = root ∨ HoldsIn root.children o n := by
  induction held with
  | root => exact Or.inl ⟨rfl, rfl⟩
  | @child start g c before after above among ih =>
    refine Or.inr ?_
    rcases ih with ⟨rfl, rfl⟩ | inside
    · rw [among, Nat.add_comm]
      exact HoldsIn.of_append (.here .root) before
    · obtain ⟨before', c', after', i, among', held, rfl⟩ := inside.exists
      rw [among', Nat.add_assoc]
      exact HoldsIn.of_append (.here (held.child among)) before'

/-! ## Nodes -/

mutual

/-- The nodes of a tree that starts at an offset, each with its own. -/
def nodesAt (start : Nat) : Green → List (Nat × Green)
  | mk d cs => (start, mk d cs) :: nodesIn start cs

/-- The nodes of trees side by side from an offset. -/
def nodesIn (start : Nat) : List Green → List (Nat × Green)
  | [] => []
  | g :: gs => nodesAt start g ++ nodesIn (start + g.length) gs

end

theorem nodesAt_eq (start : Nat) (g : Green) :
    nodesAt start g = (start, g) :: nodesIn start g.children := by
  obtain ⟨d, cs⟩ := g
  rw [nodesAt]
  rfl

theorem nodesIn_append (start : Nat) (gs hs : List Green) :
    nodesIn start (gs ++ hs) = nodesIn start gs ++ nodesIn (start + spread gs) hs := by
  induction gs generalizing start with
  | nil => simp [nodesIn]
  | cons g gs ih =>
    rw [List.cons_append, nodesIn, nodesIn, ih, spread_cons, List.append_assoc, Nat.add_assoc]

/-- The nodes below a node of the tree are nodes of the tree. -/
theorem Holds.nodesAt_subset (held : root.Holds o n) : nodesAt o n ⊆ nodesAt 0 root := by
  induction held with
  | root => exact List.Subset.refl _
  | @child start g c before after above among ih =>
    refine List.Subset.trans (fun p hp => ?_) ih
    rw [nodesAt_eq start, among, nodesIn_append, nodesIn]
    exact List.mem_cons_of_mem _
      (List.mem_append_right _ (List.mem_append_left _ hp))

mutual

theorem holds_of_mem_nodesAt {p : Nat × Green} : ∀ {g : Green} {start : Nat},
    p ∈ nodesAt start g → ∃ i, p.1 = start + i ∧ g.Holds i p.2
  | .mk d cs, start, h => by
    rw [nodesAt] at h
    rcases List.mem_cons.mp h with rfl | h
    · exact ⟨0, rfl, .root⟩
    · obtain ⟨i, place, held⟩ := holdsIn_of_mem_nodesIn h
      have held : HoldsIn (mk d cs).children i p.2 := held
      exact ⟨i, place, held.holds⟩

theorem holdsIn_of_mem_nodesIn {p : Nat × Green} : ∀ {gs : List Green} {start : Nat},
    p ∈ nodesIn start gs → ∃ i, p.1 = start + i ∧ HoldsIn gs i p.2
  | [], start, h => by
    rw [nodesIn] at h
    cases h
  | g :: gs, start, h => by
    rw [nodesIn] at h
    rcases List.mem_append.mp h with h | h
    · obtain ⟨i, place, held⟩ := holds_of_mem_nodesAt h
      exact ⟨i, place, .here held⟩
    · obtain ⟨i, place, held⟩ := holdsIn_of_mem_nodesIn h
      exact ⟨g.length + i, by omega, held.there⟩

end

theorem mem_nodesAt_iff : (o, n) ∈ nodesAt 0 root ↔ root.Holds o n := by
  refine ⟨fun h => ?_, fun held => held.nodesAt_subset (nodesAt_eq o n ▸ List.mem_cons_self)⟩
  obtain ⟨i, place, held⟩ := holds_of_mem_nodesAt h
  rw [Nat.zero_add] at place
  obtain rfl : o = i := place
  exact held

/-! ## Tokens -/

/-- A leaf at an offset as the token that it was made of. -/
def token (leaf : Green) (offset : Nat) : Token where
  symbol := leaf.symbol
  span := ⟨offset, offset + leaf.length⟩
  extent := leaf.extent
  lookahead := leaf.lookahead
  lexMode := leaf.lexMode
  isError := false

mutual

/-- The tokens of a tree that starts at an offset. -/
def tokensAt (start : Nat) : Green → List (Nat × Green)
  | mk d cs =>
    if cs.isEmpty then if d.length = 0 then [] else [(start, mk d cs)] else tokensIn start cs

/-- The tokens of trees side by side from an offset. -/
def tokensIn (start : Nat) : List Green → List (Nat × Green)
  | [] => []
  | g :: gs => tokensAt start g ++ tokensIn (start + g.length) gs

end

@[simp] theorem tokensIn_nil (start : Nat) : tokensIn start [] = [] := by rw [tokensIn]

theorem tokensIn_cons (start : Nat) (g : Green) (gs : List Green) :
    tokensIn start (g :: gs) = tokensAt start g ++ tokensIn (start + g.length) gs := by
  rw [tokensIn]

theorem tokensIn_append (start : Nat) (gs hs : List Green) :
    tokensIn start (gs ++ hs) = tokensIn start gs ++ tokensIn (start + spread gs) hs := by
  induction gs generalizing start with
  | nil => simp
  | cons g gs ih =>
    rw [List.cons_append, tokensIn_cons, tokensIn_cons, ih, spread_cons, List.append_assoc,
      Nat.add_assoc]

theorem tokensAt_of_leaf (leaf : g.children = []) (start : Nat) :
    tokensAt start g = if g.length = 0 then [] else [(start, g)] := by
  obtain ⟨d, cs⟩ := g
  obtain rfl : cs = [] := leaf
  rw [tokensAt]
  rfl

theorem eq_of_mem_tokensAt {t : Nat × Green} (leaf : g.children = [])
    (h : t ∈ tokensAt start g) : t = (start, g) := by
  rw [tokensAt_of_leaf leaf] at h
  split at h
  · exact absurd h List.not_mem_nil
  · exact List.mem_singleton.mp h

theorem tokensAt_of_inner (inner : g.children ≠ []) (start : Nat) :
    tokensAt start g = tokensIn start g.children := by
  obtain ⟨d, cs⟩ := g
  have some : ¬cs.isEmpty = true := fun none => inner (List.isEmpty_iff.mp none)
  rw [tokensAt, if_neg some]
  rfl

theorem tokensAt_of_spread (length : g.length = spread g.children) (start : Nat) :
    tokensAt start g = tokensIn start g.children := by
  by_cases leaf : g.children = []
  · rw [tokensAt_of_leaf leaf, length, leaf, spread_nil, if_pos rfl, tokensIn_nil]
  · exact tokensAt_of_inner leaf start

theorem tokensAt_node (spec : NodeSpec) (cs : List Green) (start : Nat) :
    tokensAt start (node spec cs).value = tokensIn start cs :=
  tokensAt_of_spread (length_node spec cs) start

theorem tokensIn_flatten (measured : ∀ g ∈ gs, g.Measured) (start : Nat) :
    tokensIn start (Repair.flatten gs) = tokensIn start gs := by
  induction gs generalizing start with
  | nil => rfl
  | cons g gs ih =>
    have rest := ih fun h hh => measured h (List.mem_cons_of_mem g hh)
    rcases Repair.flatten_cons g gs with ⟨-, some, opened⟩ | kept
    · rw [opened, tokensIn_append, rest, tokensIn_cons, tokensAt_of_inner some,
        (measured g List.mem_cons_self).length_eq some]
    · rw [kept, tokensIn_cons, tokensIn_cons, rest]

theorem tokensAt_errorNode (measured : ∀ g ∈ gs, g.Measured) (start : Nat) :
    tokensAt start (Repair.errorNode gs).value = tokensIn start gs :=
  (tokensAt_node _ _ start).trans (tokensIn_flatten measured start)

/-- A leaf that is not empty is a token of whatever it stands in. -/
theorem Holds.mem_tokensAt {leaf : Green} (held : root.Holds o leaf) (isLeaf : leaf.isLeaf = true)
    (nonempty : 0 < leaf.length) (start : Nat) : (start + o, leaf) ∈ tokensAt start root := by
  have within : tokensAt (start + o) leaf ⊆ tokensAt start root := by
    clear isLeaf nonempty
    induction held with
    | root => exact List.Subset.refl _
    | @child o g c before after above among ih =>
      refine List.Subset.trans ?_ ih
      have inner : g.children ≠ [] := by simp [among]
      rw [tokensAt_of_inner inner, among, tokensIn_append, tokensIn_cons,
        Nat.add_assoc]
      exact List.subset_append_of_subset_right _ (List.subset_append_left _ _)
  refine within ?_
  rw [tokensAt_of_leaf (List.isEmpty_iff.mp isLeaf), if_neg (Nat.ne_of_gt nonempty)]
  exact List.mem_singleton_self _

mutual

/-- Every token of a tree is a leaf of it that is not empty. -/
theorem holds_of_mem_tokensAt {t : Nat × Green} : ∀ {g : Green} {start : Nat},
    t ∈ tokensAt start g →
      ∃ i, t.1 = start + i ∧ g.Holds i t.2 ∧ t.2.isLeaf = true ∧ 0 < t.2.length
  | .mk d cs, start, h => by
    rw [tokensAt] at h
    split at h
    · next leaf =>
      split at h
      · exact absurd h List.not_mem_nil
      · next some =>
        rw [List.mem_singleton.mp h]
        exact ⟨0, rfl, .root, leaf, Nat.pos_of_ne_zero some⟩
    · obtain ⟨i, place, held, token⟩ := holdsIn_of_mem_tokensIn h
      have held : HoldsIn (mk d cs).children i t.2 := held
      exact ⟨i, place, held.holds, token⟩

theorem holdsIn_of_mem_tokensIn {t : Nat × Green} : ∀ {gs : List Green} {start : Nat},
    t ∈ tokensIn start gs →
      ∃ i, t.1 = start + i ∧ HoldsIn gs i t.2 ∧ t.2.isLeaf = true ∧ 0 < t.2.length
  | [], start, h => by
    rw [tokensIn_nil] at h
    cases h
  | g :: gs, start, h => by
    rw [tokensIn_cons] at h
    rcases List.mem_append.mp h with h | h
    · obtain ⟨i, place, held, token⟩ := holds_of_mem_tokensAt h
      exact ⟨i, place, .here held, token⟩
    · obtain ⟨i, place, held, token⟩ := holdsIn_of_mem_tokensIn h
      exact ⟨g.length + i, by omega, held.there, token⟩

end

end Green

end Glr
