import Glr.Proofs.Untouched

/-!
# The places of a tree

The nodes of a tree are found in several ways, and each goes over the tree in a manner of its own.
What they find are places of the tree.  `Place.Leads` says what a place of a tree is and which
places are above it, and `Place.walk` lists all of them in order, each before those below it: their
addresses, read from the root, are in the order of a dictionary (`Place.pairwise_walk`).

A node stands at a place under the visible ones of the places above it, where the root counts as
visible (`Node.Of`).  The descendants of the root are the places that are visible and its leaves
those without children, in the order of the walk, and going down from a node to its children leads
to nodes of the tree.
-/

namespace Glr

namespace Place

/-! ## Ways down -/

/-- The places that a way down from a place leads to, each with all places above it, the nearest
first. -/
inductive Leads (p : Place) (ps : List Place) : Place → List Place → Prop where
  | here : Leads p ps p ps
  | child {q : Place} {qs : List Place} {c : Green} {before after : List Green}
      (leads : Leads p ps q qs) (among : q.green.children = before ++ c :: after) :
      Leads p ps ⟨c, q.offset + Green.spread before, q.position.advance (Green.stretch before),
        before.length :: q.address⟩ (q :: qs)

theorem Leads.trans {p q r : Place} {ps qs rs : List Place} (first : Leads p ps q qs)
    (second : Leads q qs r rs) : Leads p ps r rs := by
  induction second with
  | here => exact first
  | child _ among ih => exact ih.child among

/-- The places of a tree are those that its root leads to. -/
theorem in_iff_leads {root : Green} {p : Place} :
    p.In root ↔ ∃ ps, Leads (Node.root root).place [] p ps := by
  constructor
  · intro within
    induction within with
    | root => exact ⟨[], .here⟩
    | child _ among ih =>
      obtain ⟨ps, leads⟩ := ih
      exact ⟨_, leads.child among⟩
  · rintro ⟨ps, leads⟩
    induction leads with
    | here => exact .root
    | child _ among ih => exact ih.child among

/-- A place of a tree is where what stands at it stands in the tree. -/
theorem In.holds {root : Green} {p : Place} (within : p.In root) :
    root.Holds p.offset p.green := by
  induction within with
  | root => exact .root
  | child _ among ih => exact ih.child among

theorem exists_in_of_holds {root g : Green} {o : Nat} (held : root.Holds o g) :
    ∃ p : Place, p.In root ∧ p.offset = o ∧ p.green = g := by
  induction held with
  | root => exact ⟨_, .root, rfl, rfl⟩
  | child _ among ih =>
    obtain ⟨p, within, rfl, rfl⟩ := ih
    exact ⟨_, within.child among, rfl, rfl⟩

/-! ## All places in order -/

mutual

/-- The places of a tree, each before those below it, with all places above it. -/
def walk (ps : List Place) (offset : Nat) (position : Point) (address : List Nat) :
    Green → List (Place × List Place)
  | .mk d cs =>
    (⟨.mk d cs, offset, position, address⟩, ps) ::
      walkIn (⟨.mk d cs, offset, position, address⟩ :: ps) offset position address 0 cs

/-- The places of trees side by side, of which the first has a given index. -/
def walkIn (ps : List Place) (offset : Nat) (position : Point) (address : List Nat)
    (index : Nat) : List Green → List (Place × List Place)
  | [] => []
  | g :: gs =>
    walk ps offset position (index :: address) g ++
      walkIn ps (offset + g.length) (position.advance g.extent) address (index + 1) gs

end

section Walk

variable {offset : Nat} {position : Point} {address : List Nat} {index : Nat} {c : Green}
  {p q : Place} {ps qs : List Place} {before after : List Green} {v : Place × List Place}

mutual

theorem leads_of_mem_walk : ∀ {g : Green} {offset : Nat} {position : Point} {address : List Nat}
    {ps : List Place}, v ∈ walk ps offset position address g →
      Leads ⟨g, offset, position, address⟩ ps v.1 v.2
  | .mk d cs, offset, position, address, ps, h => by
    rw [walk] at h
    rcases List.mem_cons.mp h with rfl | h
    · exact .here
    · have among : (Place.mk (.mk d cs) offset position address).green.children = [] ++ cs := rfl
      exact leads_of_mem_walkIn among h

theorem leads_of_mem_walkIn : ∀ {gs before : List Green} {p : Place} {ps : List Place},
    p.green.children = before ++ gs →
      v ∈ walkIn (p :: ps) (p.offset + Green.spread before)
        (p.position.advance (Green.stretch before)) p.address before.length gs →
      Leads p ps v.1 v.2
  | [], _, _, _, _, h => by
    rw [walkIn] at h
    exact absurd h List.not_mem_nil
  | g :: gs, before, p, ps, among, h => by
    rw [walkIn] at h
    rcases List.mem_append.mp h with h | h
    · have own : Leads p ps p ps := .here
      exact (own.child among).trans (leads_of_mem_walk h)
    · have among : p.green.children = (before ++ [g]) ++ gs := by simp [among]
      refine leads_of_mem_walkIn among ?_
      rwa [Green.spread_append, Green.spread_cons, Green.spread_nil, Nat.add_zero,
        Green.stretch_append, Green.stretch_cons, Green.stretch_nil, Point.advance_zero,
        List.length_append, List.length_singleton, ← Nat.add_assoc, ← Point.advance_assoc]

end

theorem mem_walkIn_append (before : List Green) (offset : Nat) (position : Point) (index : Nat) :
    (⟨c, offset + Green.spread before, position.advance (Green.stretch before),
      (index + before.length) :: address⟩, ps) ∈
        walkIn ps offset position address index (before ++ c :: after) := by
  induction before generalizing offset position index with
  | nil =>
    rw [List.nil_append, walkIn]
    obtain ⟨d, cs⟩ := c
    rw [walk]
    exact List.mem_append_left _ List.mem_cons_self
  | cons g gs ih =>
    rw [List.cons_append, walkIn, Green.spread_cons, Green.stretch_cons, ← Nat.add_assoc,
      ← Point.advance_assoc, List.length_cons, Nat.add_comm gs.length, ← Nat.add_assoc]
    exact List.mem_append_right _ (ih _ _ _)

mutual

theorem child_mem_walk (among : q.green.children = before ++ c :: after) : ∀ {g : Green}
    {offset : Nat} {position : Point} {address : List Nat} {ps : List Place},
    (q, qs) ∈ walk ps offset position address g →
      (⟨c, q.offset + Green.spread before, q.position.advance (Green.stretch before),
        before.length :: q.address⟩, q :: qs) ∈ walk ps offset position address g
  | .mk d cs, offset, position, address, ps, h => by
    rw [walk] at h ⊢
    rcases List.mem_cons.mp h with same | h
    · obtain ⟨rfl, rfl⟩ := Prod.mk.inj same
      obtain rfl : cs = before ++ c :: after := among
      refine List.mem_cons_of_mem _ ?_
      rw [← Nat.zero_add before.length]
      exact mem_walkIn_append before offset position 0
    · exact List.mem_cons_of_mem _ (child_mem_walkIn among h)

theorem child_mem_walkIn (among : q.green.children = before ++ c :: after) : ∀ {gs : List Green}
    {offset : Nat} {position : Point} {address : List Nat} {index : Nat} {ps : List Place},
    (q, qs) ∈ walkIn ps offset position address index gs →
      (⟨c, q.offset + Green.spread before, q.position.advance (Green.stretch before),
        before.length :: q.address⟩, q :: qs) ∈ walkIn ps offset position address index gs
  | [], _, _, _, _, _, h => by
    rw [walkIn] at h
    exact absurd h List.not_mem_nil
  | g :: gs, _, _, _, _, _, h => by
    rw [walkIn] at h ⊢
    rcases List.mem_append.mp h with h | h
    · exact List.mem_append_left _ (child_mem_walk among h)
    · exact List.mem_append_right _ (child_mem_walkIn among h)

end

/-- The walk comes to all places. -/
theorem mem_walk_iff {g : Green} : (q, qs) ∈ walk ps offset position address g ↔
    Leads ⟨g, offset, position, address⟩ ps q qs := by
  refine ⟨leads_of_mem_walk, fun leads => ?_⟩
  induction leads with
  | here =>
    obtain ⟨d, cs⟩ := g
    rw [walk]
    exact List.mem_cons_self
  | child _ among ih => exact child_mem_walk among ih

/-! ## The order of the walk -/

/-- A place comes before another if its address, read from the root, does in a dictionary.  So it
does if the other is below it, and if it is below an earlier sibling of what the other is below. -/
def Before (p q : Place) : Prop := p.address.reverse < q.address.reverse

theorem before_of_below {i : Nat} {more : List Nat}
    (below : q.address.reverse = p.address.reverse ++ i :: more) : p.Before q := by
  have less : p.address.reverse ++ [] < p.address.reverse ++ i :: more :=
    List.append_left_lt (List.nil_lt_cons i more)
  rwa [List.append_nil, ← below] at less

theorem before_of_siblings {i j : Nat} {more more' : List Nat} (earlier : i < j)
    (first : p.address.reverse = address.reverse ++ i :: more)
    (second : q.address.reverse = address.reverse ++ j :: more') : p.Before q := by
  rw [Before, first, second]
  exact List.append_left_lt (List.cons_lt_cons_iff.mpr (Or.inl earlier))

mutual

theorem address_of_mem_walk : ∀ {g : Green} {offset : Nat} {position : Point} {address : List Nat}
    {ps : List Place}, v ∈ walk ps offset position address g →
      ∃ more, v.1.address.reverse = address.reverse ++ more
  | .mk d cs, _, _, _, _, h => by
    rw [walk] at h
    rcases List.mem_cons.mp h with rfl | h
    · exact ⟨[], (List.append_nil _).symm⟩
    · obtain ⟨i, more, -, same⟩ := address_of_mem_walkIn h
      exact ⟨_, same⟩

theorem address_of_mem_walkIn : ∀ {gs : List Green} {offset : Nat} {position : Point}
    {address : List Nat} {index : Nat} {ps : List Place},
    v ∈ walkIn ps offset position address index gs →
      ∃ i more, index ≤ i ∧ v.1.address.reverse = address.reverse ++ i :: more
  | [], _, _, _, _, _, h => by
    rw [walkIn] at h
    exact absurd h List.not_mem_nil
  | g :: gs, _, _, address, index, _, h => by
    rw [walkIn] at h
    rcases List.mem_append.mp h with h | h
    · obtain ⟨more, same⟩ := address_of_mem_walk h
      rw [List.reverse_cons, List.append_assoc] at same
      exact ⟨index, more, Nat.le_refl _, same⟩
    · obtain ⟨i, more, later, same⟩ := address_of_mem_walkIn h
      exact ⟨i, more, Nat.le_of_succ_le later, same⟩

end

mutual

/-- The walk comes to each place once, and to each before those below it. -/
theorem pairwise_walk : ∀ (g : Green) (offset : Nat) (position : Point) (address : List Nat)
    (ps : List Place), (walk ps offset position address g).Pairwise fun v w => v.1.Before w.1
  | .mk d cs, offset, position, address, ps => by
    rw [walk]
    refine List.pairwise_cons.mpr ⟨fun w hw => ?_, pairwise_walkIn cs _ _ _ _ _⟩
    obtain ⟨i, more, -, same⟩ := address_of_mem_walkIn hw
    exact before_of_below same

theorem pairwise_walkIn : ∀ (gs : List Green) (offset : Nat) (position : Point)
    (address : List Nat) (index : Nat) (ps : List Place),
    (walkIn ps offset position address index gs).Pairwise fun v w => v.1.Before w.1
  | [], _, _, _, _, _ => by
    rw [walkIn]
    exact List.Pairwise.nil
  | g :: gs, offset, position, address, index, ps => by
    rw [walkIn]
    refine List.pairwise_append.mpr ⟨pairwise_walk g _ _ _ _, pairwise_walkIn gs _ _ _ _ _,
      fun v hv w hw => ?_⟩
    obtain ⟨more, first⟩ := address_of_mem_walk hv
    obtain ⟨j, more', later, second⟩ := address_of_mem_walkIn hw
    rw [List.reverse_cons, List.append_assoc] at first
    exact before_of_siblings later first second

end

end Walk

end Place

/-! ## Nodes -/

namespace Node

/-- Whether a place is shown by a node: what stands there is visible, or is the root. -/
def shows (l : Language) (p : Place) : Bool := p.address.isEmpty || l.isVisible p.green.symbol

/-- The node at a place that all given places are above. -/
def placed (l : Language) (v : Place × List Place) : Node := ⟨v.1, v.2.filter (shows l)⟩

/-- A node of a tree: it stands at a place of it, under those of the places above that are shown. -/
def Of (l : Language) (g : Green) (n : Node) : Prop :=
  ∃ ps, Place.Leads (root g).place [] n.place ps ∧ n.above = ps.filter (shows l)

section Walks

variable (l : Language)

/-! ## Descendants -/

mutual

theorem descendantsOnto_eq (after : List Node) : ∀ (g : Green) (offset : Nat) (position : Point)
    (index : Nat) (address : List Nat) (ps : List Place),
    descendantsOnto l (ps.filter (shows l)) after offset position (index :: address) g =
      ((Place.walk ps offset position (index :: address) g).filter fun v => shows l v.1).map
        (placed l) ++ after
  | .mk d cs, offset, position, index, address, ps => by
    have shown : shows l ⟨.mk d cs, offset, position, index :: address⟩ = l.isVisible d.symbol :=
      rfl
    have below := descendantsOntoIn_eq after cs offset position 0 (index :: address)
      (⟨.mk d cs, offset, position, index :: address⟩ :: ps)
    rw [List.filter_cons, shown] at below
    rw [descendantsOnto, Place.walk, List.filter_cons, shown]
    split
    · next visible =>
      rw [if_pos visible] at below
      exact congrArg (_ :: ·) below
    · next hidden => rwa [if_neg hidden] at below

theorem descendantsOntoIn_eq (after : List Node) : ∀ (gs : List Green) (offset : Nat)
    (position : Point) (index : Nat) (address : List Nat) (ps : List Place),
    descendantsOntoIn l (ps.filter (shows l)) after offset position address index gs =
      ((Place.walkIn ps offset position address index gs).filter fun v => shows l v.1).map
        (placed l) ++ after
  | [], _, _, _, _, _ => by
    rw [descendantsOntoIn, Place.walkIn]
    rfl
  | g :: gs, offset, position, index, address, ps => by
    rw [descendantsOntoIn, Place.walkIn, descendantsOntoIn_eq after gs, descendantsOnto_eq _ g,
      List.filter_append, List.map_append, List.append_assoc]

end

/-- The descendants of a node are the places that are shown in a walk from its place. -/
theorem descendants_placed {p : Place} (ps : List Place) (shown : shows l p = true) :
    (placed l (p, ps)).descendants l =
      ((Place.walk ps p.offset p.position p.address p.green).filter fun v => shows l v.1).map
        (placed l) := by
  obtain ⟨⟨d, cs⟩, offset, position, address⟩ := p
  have below := descendantsOntoIn_eq l [] cs offset position 0 address
    (⟨.mk d cs, offset, position, address⟩ :: ps)
  rw [List.filter_cons, if_pos shown, List.append_nil] at below
  rw [Place.walk, List.filter_cons, if_pos shown, List.map_cons, ← below]
  rfl

theorem descendants_root (g : Green) : (root g).descendants l =
    ((Place.walk [] 0 Point.zero [] g).filter fun v => shows l v.1).map (placed l) :=
  have shown : shows l (root g).place = true := rfl
  descendants_placed l [] shown

/-! ## Leaves -/

mutual

theorem leavesOnto_eq (after : List Node) : ∀ (g : Green) (offset : Nat) (position : Point)
    (index : Nat) (address : List Nat) (ps : List Place),
    leavesOnto l (ps.filter (shows l)) after offset position (index :: address) g =
      ((Place.walk ps offset position (index :: address) g).filter fun v =>
        v.1.green.isLeaf).map (placed l) ++ after
  | .mk d cs, offset, position, index, address, ps => by
    have shown : shows l ⟨.mk d cs, offset, position, index :: address⟩ = l.isVisible d.symbol :=
      rfl
    have leaf : (Place.mk (.mk d cs) offset position (index :: address)).green.isLeaf =
      cs.isEmpty := rfl
    have below := leavesOntoIn_eq after cs offset position 0 (index :: address)
      (⟨.mk d cs, offset, position, index :: address⟩ :: ps)
    rw [List.filter_cons, shown] at below
    rw [leavesOnto, Place.walk, List.filter_cons, leaf]
    split
    · next none =>
      obtain rfl := List.isEmpty_iff.mp none
      rw [Place.walkIn]
      rfl
    · split
      · next visible => rwa [if_pos visible] at below
      · next hidden => rwa [if_neg hidden] at below

theorem leavesOntoIn_eq (after : List Node) : ∀ (gs : List Green) (offset : Nat)
    (position : Point) (index : Nat) (address : List Nat) (ps : List Place),
    leavesOntoIn l (ps.filter (shows l)) after offset position address index gs =
      ((Place.walkIn ps offset position address index gs).filter fun v =>
        v.1.green.isLeaf).map (placed l) ++ after
  | [], _, _, _, _, _ => by
    rw [leavesOntoIn, Place.walkIn]
    rfl
  | g :: gs, offset, position, index, address, ps => by
    rw [leavesOntoIn, Place.walkIn, leavesOntoIn_eq after gs, leavesOnto_eq _ g,
      List.filter_append, List.map_append, List.append_assoc]

end

/-- The leaves of a tree are the places without children in a walk from its root. -/
theorem leavesOf_eq (g : Green) : leavesOf l g =
    ((Place.walk [] 0 Point.zero [] g).filter fun v => v.1.green.isLeaf).map (placed l) := by
  obtain ⟨d, cs⟩ := g
  have leaf : (Green.mk d cs).isLeaf = cs.isEmpty := rfl
  have below := leavesOntoIn_eq l [] cs 0 Point.zero 0 [] [(root (.mk d cs)).place]
  rw [List.append_nil] at below
  rw [leavesOf, Place.walk, List.filter_cons]
  split
  · next none =>
    obtain rfl := List.isEmpty_iff.mp (leaf.symm.trans none)
    rw [Place.walkIn]
    rfl
  · exact below

/-! ## Children -/

mutual

theorem placed_of_mem_visibleOnto {n : Node} {after : List Node} : ∀ {g : Green} {offset : Nat}
    {position : Point} {index : Nat} {address : List Nat} {ps : List Place},
    n ∈ visibleOnto l (ps.filter (shows l)) after offset position (index :: address) g →
      n ∈ after ∨ ∃ v ∈ Place.walk ps offset position (index :: address) g,
        shows l v.1 = true ∧ n = placed l v
  | .mk d cs, offset, position, index, address, ps, h => by
    have shown : shows l ⟨.mk d cs, offset, position, index :: address⟩ = l.isVisible d.symbol :=
      rfl
    rw [visibleOnto] at h
    rw [Place.walk]
    split at h
    · next visible =>
      rcases List.mem_cons.mp h with rfl | h
      · exact Or.inr ⟨_, List.mem_cons_self, shown.trans visible, rfl⟩
      · exact Or.inl h
    · next hidden =>
      have above := List.filter_cons_of_neg (p := shows l) (l := ps) (shown ▸ hidden)
      rw [← above] at h
      refine (placed_of_mem_visibleOntoIn h).imp_right fun ⟨v, hv, found⟩ => ?_
      exact ⟨v, List.mem_cons_of_mem _ hv, found⟩

theorem placed_of_mem_visibleOntoIn {n : Node} {after : List Node} : ∀ {gs : List Green}
    {offset : Nat} {position : Point} {index : Nat} {address : List Nat} {ps : List Place},
    n ∈ visibleOntoIn l (ps.filter (shows l)) after offset position address index gs →
      n ∈ after ∨ ∃ v ∈ Place.walkIn ps offset position address index gs,
        shows l v.1 = true ∧ n = placed l v
  | [], _, _, _, _, _, h => Or.inl (by rwa [visibleOntoIn] at h)
  | g :: gs, _, _, _, _, _, h => by
    rw [visibleOntoIn] at h
    rw [Place.walkIn]
    rcases placed_of_mem_visibleOnto h with h | ⟨v, hv, found⟩
    · refine (placed_of_mem_visibleOntoIn h).imp_right fun ⟨v, hv, found⟩ => ?_
      exact ⟨v, List.mem_append_right _ hv, found⟩
    · exact Or.inr ⟨v, List.mem_append_left _ hv, found⟩

end

end Walks

/-! ## The nodes of a tree -/

variable {l : Language} {g : Green} {n c : Node}

theorem of_iff : n.Of l g ↔ ∃ v ∈ Place.walk [] 0 Point.zero [] g, placed l v = n := by
  constructor
  · rintro ⟨ps, leads, above⟩
    refine ⟨(n.place, ps), Place.mem_walk_iff.mpr leads, ?_⟩
    rw [placed, ← above]
  · rintro ⟨⟨p, ps⟩, mem, rfl⟩
    exact ⟨ps, Place.mem_walk_iff.mp mem, rfl⟩

theorem Of.within (of : n.Of l g) : n.place.In g := by
  obtain ⟨ps, leads, -⟩ := of
  exact Place.in_iff_leads.mpr ⟨ps, leads⟩

theorem of_root (l : Language) (g : Green) : (root g).Of l g := ⟨[], .here, rfl⟩

/-- The parent is the nearest of the places above that are shown. -/
theorem place_parent? {ps : List Place} (above : n.above = ps.filter (shows l)) :
    n.parent?.map (·.place) = ps.find? (shows l) := by
  rw [← List.head?_filter, ← above, parent?]
  split
  · next none => rw [none]; rfl
  · next some => rw [some]; rfl

theorem mem_descendants_iff : n ∈ (root g).descendants l ↔ n.Of l g ∧ shows l n.place = true := by
  rw [descendants_root, List.mem_map, of_iff]
  constructor
  · rintro ⟨v, mem, rfl⟩
    obtain ⟨mem, shown⟩ := List.mem_filter.mp mem
    exact ⟨⟨v, mem, rfl⟩, shown⟩
  · rintro ⟨⟨v, mem, rfl⟩, shown⟩
    exact ⟨v, List.mem_filter.mpr ⟨mem, shown⟩, rfl⟩

theorem mem_leavesOf_iff : n ∈ leavesOf l g ↔ n.Of l g ∧ n.green.isLeaf = true := by
  rw [leavesOf_eq, List.mem_map, of_iff]
  constructor
  · rintro ⟨v, mem, rfl⟩
    obtain ⟨mem, leaf⟩ := List.mem_filter.mp mem
    exact ⟨⟨v, mem, rfl⟩, leaf⟩
  · rintro ⟨⟨v, mem, rfl⟩, leaf⟩
    exact ⟨v, List.mem_filter.mpr ⟨mem, leaf⟩, rfl⟩

/-- The leaves that are listed are those that stand in the tree. -/
theorem forall_leavesOf (l : Language) {P : Nat → Green → Prop} :
    (∀ n ∈ leavesOf l g, P n.place.offset n.green) ↔
      ∀ o m, g.Holds o m → m.children = [] → P o m := by
  constructor
  · intro all o m held leaf
    obtain ⟨p, within, rfl, rfl⟩ := Place.exists_in_of_holds held
    obtain ⟨ps, leads⟩ := Place.in_iff_leads.mp within
    exact all (placed l (p, ps))
      (mem_leavesOf_iff.mpr ⟨⟨ps, leads, rfl⟩, List.isEmpty_iff.mpr leaf⟩)
  · intro all n hn
    obtain ⟨of, leaf⟩ := mem_leavesOf_iff.mp hn
    exact all _ _ of.within.holds (List.isEmpty_iff.mp leaf)

/-- What is listed of a walk is listed in the order of the walk. -/
theorem pairwise_descendants (l : Language) (g : Green) :
    ((root g).descendants l).Pairwise fun m n => m.place.Before n.place := by
  rw [descendants_root, List.pairwise_map]
  exact (Place.pairwise_walk g 0 Point.zero [] []).filter _

/-- The children of a node of a tree are nodes of the tree. -/
theorem Of.child (of : n.Of l g) (shown : shows l n.place = true) (among : c ∈ n.children l) :
    c.Of l g ∧ shows l c.place = true := by
  obtain ⟨ps, leads, above⟩ := of
  have here : n.place :: n.above = (n.place :: ps).filter (shows l) := by
    rw [List.filter_cons, if_pos shown, above]
  rw [children, here] at among
  obtain ⟨v, mem, visible, rfl⟩ :=
    (placed_of_mem_visibleOntoIn l among).resolve_left List.not_mem_nil
  have all : n.place.green.children = [] ++ n.green.children := rfl
  have below : Place.Leads n.place ps v.1 v.2 := Place.leads_of_mem_walkIn all mem
  exact ⟨⟨v.2, leads.trans below, rfl⟩, visible⟩

end Node

end Glr
