import Glr.Proofs.Arisen
import Glr.Proofs.Places

/-!
# Finding nodes

There are four ways of finding a node: to list the descendants of the root, to search the leaves for
an offset, to take what is visible at a leaf, and to go down from the root to the smallest node over
a range.  They agree (`Tree.Findings`).

Each search is compared with the walk over the places.  The leaves stand side by side, so that the
one over an offset is the last that does not start behind it, and halving finds that.  The search
for a range goes down wherever it can; what it finds is smallest because whatever is below a place
is within it, and for the range of one byte that is the visible place nearest to the leaf of that
byte.
-/

namespace Glr

/-! ## Halving -/

/-- Halving finds where flags that are up come to an end. -/
theorem Tree.bisect_spec {up : Nat → Bool} (down : ∀ i j, i ≤ j → up j = true → up i = true)
    (low size : Nat) : low ≤ bisect up low size ∧ bisect up low size ≤ low + size ∧
      ∀ i, low ≤ i → i < low + size → (up i = true ↔ i < bisect up low size) := by
  fun_induction bisect up low size with
  | case1 low size small last =>
    rw [Bool.and_eq_true, decide_eq_true_eq] at last
    refine ⟨Nat.le_succ low, by omega, fun i first within => ?_⟩
    obtain rfl : i = low := by omega
    exact iff_of_true last.2 (Nat.lt_succ_self _)
  | case2 low size small last =>
    rw [Bool.and_eq_true, decide_eq_true_eq] at last
    refine ⟨Nat.le_refl _, by omega, fun i first within => ?_⟩
    obtain rfl : i = low := by omega
    exact iff_of_false (fun here => last ⟨by omega, here⟩) (Nat.lt_irrefl _)
  | case3 low size large half ih =>
    have bound : 0 < half ∧ half < size := by omega
    by_cases here : up (low + half) = true
    · rw [dif_pos here] at ih
      rw [if_pos here]
      obtain ⟨first, last, found⟩ := ih
      refine ⟨by omega, by omega, fun i above within => ?_⟩
      by_cases past : low + half ≤ i
      · exact found i past (by omega)
      · exact iff_of_true (down i _ (by omega) here) (by omega)
    · rw [dif_neg here] at ih
      rw [if_neg here]
      obtain ⟨first, last, found⟩ := ih
      refine ⟨first, by omega, fun i above within => ?_⟩
      by_cases past : i < low + (size - half)
      · exact found i above past
      · exact iff_of_false (fun there => here (down _ i (by omega) there)) (by omega)

/-! ## The leaf over an offset -/

section LeafAt

variable {t : Tree} {offset : Nat} {n : Node}

/-- Of the leaves just one holds an offset of the tree. -/
theorem Tree.length_filter_leaves (summed : t.root.Summed) (offset : Nat) :
    (t.leaves.filter fun n => n.span.contains offset).length =
      if offset < t.textLength then 1 else 0 := by
  have tile := Node.tile_leavesOf t.language summed
  have count := tile.length_filter offset
  rw [List.filter_map, List.length_map] at count
  simp only [Nat.zero_le, true_and] at count
  exact count

/-- Whether there is a leaf of an index that does not start behind the offset. -/
def Tree.startsBy (t : Tree) (offset i : Nat) : Bool :=
  t.leaves[i]?.any fun n => n.span.start ≤ offset

theorem Tree.startsBy_iff {i : Nat} : t.startsBy offset i = true ↔
    ∃ h : i < t.leaves.length, t.leaves[i].span.start ≤ offset := by
  rw [startsBy, Option.any_eq_true]
  constructor
  · rintro ⟨n, found, before⟩
    obtain ⟨inside, rfl⟩ := List.getElem?_eq_some_iff.mp found
    exact ⟨inside, of_decide_eq_true before⟩
  · rintro ⟨inside, before⟩
    exact ⟨_, List.getElem?_eq_getElem inside, decide_eq_true before⟩

theorem Tree.leafAt?_eq_find? (t : Tree) (offset : Nat) :
    t.leafAt? offset = (t.leaves.take (bisect (t.startsBy offset) 0 t.leaves.length)).reverse.find?
      fun n => n.span.contains offset := by
  rw [leafAt?]
  dsimp only
  rw [List.size_toArray]
  congr 4
  funext i
  rw [List.getElem?_toArray, startsBy]
  cases t.leaves[i]? <;> rfl

/-- The search comes to all leaves that do not start behind the offset. -/
theorem Tree.exists_front (summed : t.root.Summed) (offset : Nat) :
    ∃ front behind, t.leaves = front ++ behind ∧ (∀ n ∈ behind, offset < n.span.start) ∧
      t.leafAt? offset = front.reverse.find? fun n => n.span.contains offset := by
  obtain ⟨-, sorted⟩ := (Node.tile_leavesOf t.language summed).starts
  rw [List.pairwise_map] at sorted
  have down (i j : Nat) (le : i ≤ j) (here : t.startsBy offset j = true) :
      t.startsBy offset i = true := by
    obtain ⟨inside, before⟩ := startsBy_iff.mp here
    rcases Nat.lt_or_eq_of_le le with lt | rfl
    · have order := List.pairwise_iff_getElem.mp sorted i j (Nat.lt_trans lt inside) inside lt
      exact startsBy_iff.mpr ⟨Nat.lt_trans lt inside, Nat.le_trans order before⟩
    · exact here
  obtain ⟨-, -, found⟩ := Tree.bisect_spec down 0 t.leaves.length
  refine ⟨_, _, (List.take_append_drop _ _).symm, fun n hn => ?_, t.leafAt?_eq_find? offset⟩
  obtain ⟨k, inside, rfl⟩ := List.mem_iff_getElem.mp hn
  rw [List.length_drop] at inside
  rw [List.getElem_drop]
  refine Nat.lt_of_not_le fun before => ?_
  have within : bisect (t.startsBy offset) 0 t.leaves.length + k < t.leaves.length := by omega
  have here := (found _ (Nat.zero_le _) (by omega)).mp (startsBy_iff.mpr ⟨within, before⟩)
  omega

/-- The search finds the leaf that holds the offset. -/
theorem Tree.leafAt?_eq (summed : t.root.Summed) (offset : Nat) :
    t.leafAt? offset = (t.leaves.filter fun n => n.span.contains offset).head? := by
  have single := t.length_filter_leaves summed offset
  obtain ⟨front, behind, leaves, apart, search⟩ := t.exists_front summed offset
  have none : behind.filter (fun n => n.span.contains offset) = [] := by
    refine List.filter_eq_nil_iff.mpr fun n hn here => ?_
    exact Nat.not_le_of_lt (apart n hn) (Span.contains_iff.mp here).1
  rw [leaves, List.filter_append, none, List.append_nil] at single ⊢
  rw [search, ← List.head?_filter, List.filter_reverse]
  generalize front.filter (fun n => n.span.contains offset) = found at single ⊢
  rcases found with _ | ⟨n, _ | ⟨m, more⟩⟩
  · rfl
  · rfl
  · simp only [List.length_cons] at single
    split at single <;> omega

end LeafAt

/-! ## The smallest node over a range -/

namespace Place

variable {p q : Place} {ps qs : List Place} {v : Place × List Place}

/-- What is below a place is within it. -/
theorem Leads.within (leads : Leads p ps q qs) (summed : p.green.Summed) :
    q.green.Summed ∧ p.span.covers q.span = true := by
  induction leads with
  | here => exact ⟨summed, p.span.covers_self⟩
  | @child q qs c before after leads among ih =>
    obtain ⟨inner, within⟩ := ih
    have length := inner.length_eq (by simp [among])
    rw [among, Green.spread_append, Green.spread_cons] at length
    refine ⟨inner.of_mem c (by simp [among]), Span.covers_trans within (Span.covers_iff.mpr ?_)⟩
    show q.offset ≤ q.offset + Green.spread before ∧
      q.offset + Green.spread before + c.length ≤ q.offset + q.green.length
    omega

/-- The places below a place. -/
def below (v : Place × List Place) : List (Place × List Place) :=
  walkIn (v.1 :: v.2) v.1.offset v.1.position v.1.address 0 v.1.green.children

theorem walk_eq (v : Place × List Place) :
    walk v.2 v.1.offset v.1.position v.1.address v.1.green = v :: below v := by
  obtain ⟨⟨⟨d, cs⟩, offset, position, address⟩, ps⟩ := v
  rw [walk]
  rfl

end Place

namespace Node

/-- A search goes down into whatever is over a range that is not empty. -/
theorem fits_eq_covers {s range : Span} (bytes : range.start < range.stop) :
    fits s range = s.covers range := by
  have byte : range.isEmpty = false := beq_eq_false_iff_ne.mpr (Nat.ne_of_lt bytes)
  rw [fits, byte, Bool.not_false, Bool.true_or, Bool.and_true]
  refine Bool.and_eq_left_iff_imp.mpr fun covers => ?_
  rw [Span.covers_iff] at covers
  rw [Span.isEmpty, Bool.not_eq_true', beq_eq_false_iff_ne]
  omega

section Smallest

variable {l : Language} {range : Span} {v : Place × List Place}
  {ws ws' : List (Place × List Place)} {found : Option Node}

/-- Whether a place is shown and is over a range. -/
def showsOver (l : Language) (range : Span) (v : Place × List Place) : Bool :=
  shows l v.1 && v.1.span.covers range

/-- What a search for a range makes of places: if any of those that are shown is over the range, it
finds one such that nothing shown below it is over the range as well. -/
inductive Smallest (l : Language) (range : Span) (ws : List (Place × List Place)) :
    Option Node → Prop where
  | none (apart : ∀ v ∈ ws, showsOver l range v = false) : Smallest l range ws none
  | some {v : Place × List Place} (mem : v ∈ ws) (covers : showsOver l range v = true)
      (below : ∀ w ∈ Place.below v, showsOver l range w = false) :
      Smallest l range ws (some (placed l v))

theorem Smallest.of_append_left (first : Smallest l range ws found) (isSome : found.isSome = true) :
    Smallest l range (ws ++ ws') found := by
  cases first with
  | none apart => cases isSome
  | some mem covers below => exact .some (List.mem_append_left _ mem) covers below

theorem Smallest.of_append_right (apart : ∀ v ∈ ws, showsOver l range v = false)
    (rest : Smallest l range ws' found) : Smallest l range (ws ++ ws') found := by
  cases rest with
  | none apart' => exact .none (List.forall_mem_append.mpr ⟨apart, apart'⟩)
  | some mem covers below => exact .some (List.mem_append_right _ mem) covers below

variable (l)

mutual

/-- The search down a tree finds a smallest node that is shown in it. -/
theorem smallestOver?_spec (bytes : range.start < range.stop) : ∀ (g : Green) (offset : Nat)
    (position : Point) (index : Nat) (address : List Nat) (ps : List Place), g.Summed →
      Smallest l range (Place.walk ps offset position (index :: address) g)
        (smallestOver? l range (ps.filter (shows l)) offset position (index :: address) g)
  | .mk d cs, offset, position, index, address, ps, summed => by
    have shown : shows l ⟨.mk d cs, offset, position, index :: address⟩ = l.isVisible d.symbol :=
      rfl
    have below := smallestOverIn?_spec bytes cs offset position 0 (index :: address)
      (⟨.mk d cs, offset, position, index :: address⟩ :: ps) summed.of_mem
    rw [List.filter_cons, shown] at below
    rw [smallestOver?]
    split
    · next visible =>
      rw [if_pos visible] at below
      dsimp only
      rw [fits_eq_covers bytes]
      split
      · next covers =>
        have here : showsOver l range (⟨.mk d cs, offset, position, index :: address⟩, ps) = true :=
          Bool.and_eq_true_iff.mpr ⟨visible, covers⟩
        rw [Place.walk]
        split
        · next found =>
          rw [found] at below
          cases below with
          | some mem covers below => exact .some (List.mem_cons_of_mem _ mem) covers below
        · next nothing =>
          rw [nothing] at below
          cases below with
          | none apart => exact .some List.mem_cons_self here apart
      · next apart =>
        -- What does not cover the range holds nothing that does.
        refine .none fun v hv => Bool.and_eq_false_iff.mpr (Or.inr ?_)
        obtain ⟨-, within⟩ := (Place.leads_of_mem_walk hv).within summed
        exact Bool.eq_false_iff.mpr fun covers => apart (Span.covers_trans within covers)
    · next hidden =>
      rw [if_neg hidden] at below
      rw [Place.walk]
      have here : showsOver l range (⟨.mk d cs, offset, position, index :: address⟩, ps) = false :=
        Bool.and_eq_false_iff.mpr (Or.inl (Bool.eq_false_iff.mpr hidden))
      exact .of_append_right (List.forall_mem_singleton.mpr here) below

theorem smallestOverIn?_spec (bytes : range.start < range.stop) : ∀ (gs : List Green)
    (offset : Nat) (position : Point) (index : Nat) (address : List Nat) (ps : List Place),
    (∀ g ∈ gs, g.Summed) →
      Smallest l range (Place.walkIn ps offset position address index gs)
        (smallestOverIn? l range (ps.filter (shows l)) offset position address index gs)
  | [], _, _, _, _, _, _ => by
    rw [smallestOverIn?, Place.walkIn]
    exact .none fun v hv => absurd hv List.not_mem_nil
  | g :: gs, offset, position, index, address, ps, summed => by
    obtain ⟨own, others⟩ := List.forall_mem_cons.mp summed
    have first := smallestOver?_spec bytes g offset position index address ps own
    rw [smallestOverIn?, Place.walkIn]
    split
    · next found =>
      rw [found] at first
      exact first.of_append_left rfl
    · next nothing =>
      rw [nothing] at first
      cases first with
      | none apart => exact .of_append_right apart (smallestOverIn?_spec bytes gs _ _ _ _ ps others)

end

/-- What is shown below a node is not over a range if no place below it is. -/
theorem covers_of_mem_tail {m : Node} (shown : shows l v.1 = true)
    (below : ∀ w ∈ Place.below v, showsOver l range w = false)
    (mem : m ∈ ((placed l v).descendants l).tail) : m.span.covers range = false := by
  rw [descendants_placed l v.2 shown, Place.walk_eq, List.filter_cons, if_pos shown, List.map_cons,
    List.tail_cons] at mem
  obtain ⟨w, hw, rfl⟩ := List.mem_map.mp mem
  obtain ⟨hw, visible⟩ := List.mem_filter.mp hw
  have apart := below w hw
  rw [showsOver, visible, Bool.true_and] at apart
  exact apart

omit l in
theorem covers_root {g : Green} (inside : range.stop ≤ g.length) :
    (root g).span.covers range = true :=
  Span.covers_iff.mpr ⟨Nat.zero_le _, inside.trans (Nat.le_of_eq (Nat.zero_add _).symm)⟩

/-- The search from the root is a search among its children, which finds the root where nothing else
is found. -/
theorem descendantForRange?_root {g : Green} (inside : range.stop ≤ g.length) :
    (root g).descendantForRange? l range =
      some ((smallestOverIn? l range ([(root g).place].filter (shows l)) 0 Point.zero [] 0
        g.children).getD (root g)) := by
  rw [descendantForRange?, if_pos (covers_root inside)]
  split
  · next m found => exact congrArg (fun found? => some (Option.getD found? (root g))) found.symm
  · next none => exact congrArg (fun found? => some (Option.getD found? (root g))) none.symm

/-- The search from the root finds a smallest node over a range: nothing shown below it is over the
range as well. -/
theorem descendantForRange?_spec {g : Green} (summed : g.Summed)
    (bytes : range.start < range.stop) (inside : range.stop ≤ g.length) :
    ∃ n, (root g).descendantForRange? l range = some n ∧ n ∈ (root g).descendants l ∧
      n.span.covers range = true ∧ ∀ m ∈ (n.descendants l).tail, m.span.covers range = false := by
  have walk : Place.walk [] 0 Point.zero [] g = _ := Place.walk_eq ((root g).place, [])
  have below : Smallest l range (Place.below ((root g).place, [])) _ :=
    smallestOverIn?_spec l bytes g.children 0 Point.zero 0 [] [(root g).place] summed.of_mem
  refine ⟨_, descendantForRange?_root l inside, ?_⟩
  rw [descendants_root, walk]
  generalize smallestOverIn? l range _ _ _ _ _ _ = found at below
  cases below with
  | none apart =>
    exact ⟨List.mem_map.mpr ⟨_, List.mem_filter.mpr ⟨List.mem_cons_self, rfl⟩, rfl⟩,
      covers_root inside, fun m => covers_of_mem_tail l rfl apart⟩
  | @some v mem covers below =>
    obtain ⟨shown, whole⟩ := Bool.and_eq_true_iff.mp covers
    exact ⟨List.mem_map_of_mem (List.mem_filter.mpr ⟨List.mem_cons_of_mem _ mem, shown⟩), whole,
      fun m => covers_of_mem_tail l shown below⟩

end Smallest

/-! ## The node over a byte -/

section Nearest

variable (l : Language) {ps : List Place} {p : Place} {o : Nat}

/-- The nearest of places that is shown. -/
def nearest (l : Language) (ps : List Place) : Option Node :=
  match ps.filter (shows l) with
  | [] => none
  | p :: ps => some ⟨p, ps⟩

theorem nearest_of_shown (shown : shows l p = true) :
    nearest l (p :: ps) = some (placed l (p, ps)) := by
  rw [nearest, List.filter_cons_of_pos shown]
  rfl

theorem nearest_of_hidden (hidden : ¬ shows l p = true) : nearest l (p :: ps) = nearest l ps := by
  rw [nearest, List.filter_cons_of_neg hidden, nearest]

theorem covers_byte {s : Span} : s.covers ⟨o, o + 1⟩ = s.contains o := by
  rw [Bool.eq_iff_iff, Span.covers_iff, Span.contains_iff]
  exact Iff.rfl

/-- A search among places that do not hold a byte finds nothing. -/
theorem Smallest.eq_none {range : Span} {ws : List (Place × List Place)} {found : Option Node}
    (h : Smallest l range ws found) (apart : ∀ v ∈ ws, v.1.span.covers range = false) :
    found = Option.none := by
  cases h with
  | none => rfl
  | some mem covers =>
    rw [showsOver, apart _ mem, Bool.and_false] at covers
    cases covers

theorem within_of_mem_walk {g : Green} {offset : Nat} {position : Point} {address : List Nat}
    {v : Place × List Place} (summed : g.Summed)
    (mem : v ∈ Place.walk ps offset position address g) :
    (Span.ofLength offset g.length).covers v.1.span = true :=
  ((Place.leads_of_mem_walk mem).within summed).2

theorem within_of_mem_walkIn {gs : List Green} {offset : Nat} {position : Point}
    {address : List Nat} {index : Nat} {v : Place × List Place} (summed : ∀ g ∈ gs, g.Summed)
    (mem : v ∈ Place.walkIn ps offset position address index gs) :
    (Span.ofLength offset (Green.spread gs)).covers v.1.span = true := by
  induction gs generalizing offset position index with
  | nil =>
    rw [Place.walkIn] at mem
    exact absurd mem List.not_mem_nil
  | cons g gs ih =>
    obtain ⟨own, others⟩ := List.forall_mem_cons.mp summed
    rw [Place.walkIn] at mem
    rw [Green.spread_cons]
    rcases List.mem_append.mp mem with mem | mem
    · refine Span.covers_trans (Span.covers_iff.mpr ?_) (within_of_mem_walk own mem)
      exact ⟨Nat.le_refl _, by show offset + g.length ≤ offset + (g.length + _); omega⟩
    · refine Span.covers_trans (Span.covers_iff.mpr ?_) (ih others mem)
      exact ⟨Nat.le_add_right _ _,
        by show offset + g.length + _ ≤ offset + (g.length + _); omega⟩

theorem covers_eq_false {s t : Span} (within : s.covers t = true) (out : ¬ s.contains o = true) :
    t.covers ⟨o, o + 1⟩ = false := by
  refine Bool.eq_false_iff.mpr fun covers => out ?_
  rw [← covers_byte]
  exact Span.covers_trans within covers

theorem smallestOver?_eq_none {g : Green} {offset : Nat} (position : Point) (index : Nat)
    (address : List Nat) (ps : List Place) (summed : g.Summed)
    (out : ¬ (Span.ofLength offset g.length).contains o = true) :
    smallestOver? l ⟨o, o + 1⟩ (ps.filter (shows l)) offset position (index :: address) g = none :=
  (smallestOver?_spec l (Nat.lt_succ_self o) g _ _ _ _ ps summed).eq_none l
    fun _ hv => covers_eq_false (within_of_mem_walk summed hv) out

theorem smallestOverIn?_eq_none {gs : List Green} {offset : Nat} (position : Point) (index : Nat)
    (address : List Nat) (ps : List Place) (summed : ∀ g ∈ gs, g.Summed)
    (out : ¬ (Span.ofLength offset (Green.spread gs)).contains o = true) :
    smallestOverIn? l ⟨o, o + 1⟩ (ps.filter (shows l)) offset position address index gs = none :=
  (smallestOverIn?_spec l (Nat.lt_succ_self o) gs _ _ _ _ ps summed).eq_none l
    fun _ hv => covers_eq_false (within_of_mem_walkIn summed hv) out

mutual

/-- In a tree that holds a byte there is a leaf that does, and the search finds what is shown
nearest to it. -/
theorem exists_leaf_nearest : ∀ (g : Green) (offset : Nat) (position : Point) (index : Nat)
    (address : List Nat) (ps : List Place), g.Summed →
      (Span.ofLength offset g.length).contains o = true →
      ∃ v ∈ Place.walk ps offset position (index :: address) g,
        v.1.green.isLeaf = true ∧ v.1.span.contains o = true ∧
        (smallestOver? l ⟨o, o + 1⟩ (ps.filter (shows l)) offset position (index :: address) g).or
          (nearest l ps) = nearest l (v.1 :: v.2)
  | .mk d cs, offset, position, index, address, ps, summed, holds => by
    have shown : shows l ⟨.mk d cs, offset, position, index :: address⟩ = l.isVisible d.symbol :=
      rfl
    have covers : fits (Place.mk (.mk d cs) offset position (index :: address)).span
        ⟨o, o + 1⟩ = true := by
      rw [fits_eq_covers (Nat.lt_succ_self o), covers_byte]
      exact holds
    rw [smallestOver?, Place.walk]
    dsimp only
    rw [if_pos covers]
    by_cases leaf : cs = []
    · obtain rfl := leaf
      refine ⟨_, List.mem_cons_self, rfl, holds, ?_⟩
      rw [smallestOverIn?, smallestOverIn?]
      split
      · next visible => exact (nearest_of_shown l (shown.trans visible)).symm
      · next hidden => exact (nearest_of_hidden l (shown ▸ hidden)).symm
    · have length : d.length = Green.spread cs := summed.length_eq leaf
      obtain ⟨v, mem, isLeaf, own, found⟩ := exists_leaf_nearest_in cs offset position 0
        (index :: address) (⟨.mk d cs, offset, position, index :: address⟩ :: ps) summed.of_mem
        (length ▸ holds)
      refine ⟨v, List.mem_cons_of_mem _ mem, isLeaf, own, ?_⟩
      rw [← found]
      split
      · next visible =>
        have visible := shown.trans visible
        rw [nearest_of_shown l visible, List.filter_cons_of_pos visible]
        split
        · next some => rw [some]; rfl
        · next none => rw [none]; rfl
      · next hidden =>
        have hidden := shown ▸ hidden
        rw [nearest_of_hidden l hidden, List.filter_cons_of_neg hidden]

theorem exists_leaf_nearest_in : ∀ (gs : List Green) (offset : Nat) (position : Point)
    (index : Nat) (address : List Nat) (ps : List Place), (∀ g ∈ gs, g.Summed) →
      (Span.ofLength offset (Green.spread gs)).contains o = true →
      ∃ v ∈ Place.walkIn ps offset position address index gs,
        v.1.green.isLeaf = true ∧ v.1.span.contains o = true ∧
        (smallestOverIn? l ⟨o, o + 1⟩ (ps.filter (shows l)) offset position address index gs).or
          (nearest l ps) = nearest l (v.1 :: v.2)
  | [], offset, _, _, _, _, _, holds => by
    obtain ⟨first, last⟩ := Span.contains_iff.mp holds
    exact absurd (Nat.lt_of_le_of_lt first last) (Nat.lt_irrefl offset)
  | g :: gs, offset, position, index, address, ps, summed, holds => by
    obtain ⟨first, others⟩ := List.forall_mem_cons.mp summed
    rw [smallestOverIn?, Place.walkIn]
    by_cases here : (Span.ofLength offset g.length).contains o = true
    · have out : ¬ (Span.ofLength (offset + g.length) (Green.spread gs)).contains o = true := by
        rw [Span.contains_iff] at here ⊢
        exact fun there => Nat.not_le_of_lt here.2 there.1
      obtain ⟨v, mem, isLeaf, own, found⟩ :=
        exists_leaf_nearest g offset position index address ps first here
      refine ⟨v, List.mem_append_left _ mem, isLeaf, own, ?_⟩
      rw [smallestOverIn?_eq_none l _ _ address ps others out, ← found]
      split
      · next some => rw [some]
      · next none => rw [none]
    · have rest : (Span.ofLength (offset + g.length) (Green.spread gs)).contains o = true := by
        rw [Span.contains_iff] at holds here ⊢
        simp only [Span.ofLength, Green.spread_cons] at holds here ⊢
        omega
      obtain ⟨v, mem, found⟩ := exists_leaf_nearest_in gs (offset + g.length)
        (position.advance g.extent) (index + 1) address ps others rest
      rw [smallestOver?_eq_none l _ _ _ ps first here]
      exact ⟨v, List.mem_append_right _ mem, found⟩

end

end Nearest

end Node

/-! ## Trees -/

namespace Tree

variable {t : Tree} {offset : Nat}

theorem nodeAt?_eq_of_leaf {v : Place × List Place}
    (leaf : t.leafAt? offset = some (Node.placed t.language v))
    (shown : Node.shows t.language v.1 = t.language.isVisible v.1.green.symbol) :
    t.nodeAt? offset = Node.nearest t.language (v.1 :: v.2) := by
  rw [nodeAt?, leaf]
  dsimp only
  split
  · next visible => exact (Node.nearest_of_shown t.language (shown.trans visible)).symm
  · next hidden =>
    rw [Node.nearest_of_hidden t.language (shown ▸ hidden)]
    rfl

/-- A leaf that holds an offset is the one that the search finds. -/
theorem leafAt?_eq_some (summed : t.root.Summed) (inside : offset < t.textLength)
    {v : Place × List Place} (mem : v ∈ Place.walk [] 0 Point.zero [] t.root)
    (isLeaf : v.1.green.isLeaf = true) (holds : v.1.span.contains offset = true) :
    t.leafAt? offset = some (Node.placed t.language v) := by
  have single := t.length_filter_leaves summed offset
  rw [if_pos inside] at single
  obtain ⟨n, only⟩ := List.length_eq_one_iff.mp single
  have here : Node.placed t.language v ∈ t.leaves.filter fun n => n.span.contains offset := by
    refine List.mem_filter.mpr ⟨Node.mem_leavesOf_iff.mpr ⟨?_, isLeaf⟩, holds⟩
    exact Node.of_iff.mpr ⟨v, mem, rfl⟩
  rw [only] at here
  rw [t.leafAt?_eq summed, only, List.mem_singleton.mp here]
  rfl

/-- What is visible at the leaf of a byte is the smallest node over the byte. -/
theorem nodeAt?_eq (summed : t.root.Summed)
    (visible : t.root.children = [] → t.language.isVisible t.root.symbol = true)
    (inside : offset < t.textLength) :
    t.nodeAt? offset = t.rootNode.descendantForRange? t.language ⟨offset, offset + 1⟩ := by
  have whole : t.rootNode.span.contains offset = true :=
    Node.covers_byte.symm.trans (Node.covers_root inside)
  have walk : Place.walk [] 0 Point.zero [] t.root = _ := Place.walk_eq (t.rootNode.place, [])
  have search : t.rootNode.descendantForRange? t.language ⟨offset, offset + 1⟩ = _ :=
    Node.descendantForRange?_root t.language inside
  have shown : Node.shows t.language t.rootNode.place = true := rfl
  rw [search]
  by_cases leaf : t.root.children = []
  · have first : (t.rootNode.place, []) ∈ Place.walk [] 0 Point.zero [] t.root :=
      walk ▸ List.mem_cons_self
    have here := t.leafAt?_eq_some summed inside first (List.isEmpty_iff.mpr leaf) whole
    rw [nodeAt?_eq_of_leaf here (visible leaf).symm, Node.nearest_of_shown t.language shown, leaf,
      Node.smallestOverIn?, Option.getD_none]
    rfl
  · have holds : (Span.ofLength 0 (Green.spread t.root.children)).contains offset = true := by
      rw [← summed.length_eq leaf]
      exact whole
    obtain ⟨v, mem, isLeaf, own, nearest⟩ := Node.exists_leaf_nearest_in t.language t.root.children
      0 Point.zero 0 [] [t.rootNode.place] summed.of_mem holds
    obtain ⟨i, more, -, address⟩ := Place.address_of_mem_walkIn mem
    have below : v ∈ Place.walk [] 0 Point.zero [] t.root := walk ▸ List.mem_cons_of_mem _ mem
    have inner : v.1.address.isEmpty = false := by
      rw [← List.isEmpty_reverse, address]
      rfl
    have here := t.leafAt?_eq_some summed inside below isLeaf own
    rw [nodeAt?_eq_of_leaf here (by rw [Node.shows, inner, Bool.false_or]), ← nearest,
      Node.nearest_of_shown t.language shown]
    exact Option.or_some

/-- The ways of finding a node agree.  The root and its descendants are the places of the tree that
are shown, each once and before those below it, and the parent of a node is the nearest shown place
above; the leaf over an offset is the only leaf that holds it; the node over a byte is the smallest
over the range of the byte; and the smallest node over a range is over it, and nothing that is shown
below it is. -/
structure Findings (t : Tree) : Prop where
  first : (t.rootNode.descendants t.language).head? = some t.rootNode
  descendants : ∀ n, n ∈ t.rootNode.descendants t.language ↔
    n.Of t.language t.root ∧ Node.shows t.language n.place = true
  ordered : (t.rootNode.descendants t.language).Pairwise fun m n => m.place.Before n.place
  parents : ∀ n ∈ t.rootNode.descendants t.language,
    ∃ ps, Place.Leads t.rootNode.place [] n.place ps ∧
      n.parent?.map (·.place) = ps.find? (Node.shows t.language)
  leaves : ∀ n, n ∈ t.leaves ↔ n.Of t.language t.root ∧ n.green.isLeaf = true
  leafAt : ∀ offset, (t.leafAt? offset).isSome = true ↔ offset < t.textLength
  unique : ∀ offset n, t.leafAt? offset = some n →
    (t.leaves.filter fun m => m.span.contains offset) = [n]
  nodeAt : ∀ offset < t.textLength,
    t.nodeAt? offset = t.rootNode.descendantForRange? t.language ⟨offset, offset + 1⟩
  smallest : ∀ range : Span, range.start < range.stop → range.stop ≤ t.textLength →
    ∃ n, t.rootNode.descendantForRange? t.language range = some n ∧
      n ∈ t.rootNode.descendants t.language ∧ n.span.covers range = true ∧
      ∀ m ∈ (n.descendants t.language).tail, m.span.covers range = false

theorem findings (summed : t.root.Summed) (visible : t.root.children = [] →
    t.root.length = 0 ∨ t.language.isVisible t.root.symbol = true) : t.Findings where
  first := rfl
  descendants _ := Node.mem_descendants_iff
  ordered := Node.pairwise_descendants t.language t.root
  parents n hn := by
    obtain ⟨ps, leads, above⟩ := (Node.mem_descendants_iff.mp hn).1
    exact ⟨ps, leads, Node.place_parent? above⟩
  leaves _ := Node.mem_leavesOf_iff
  leafAt offset := by
    have single := t.length_filter_leaves summed offset
    rw [t.leafAt?_eq summed, List.isSome_head?, ← List.length_pos_iff, single]
    split <;> simp [*]
  unique offset n leaf := by
    have single := t.length_filter_leaves summed offset
    rw [t.leafAt?_eq summed] at leaf
    have some := List.length_pos_iff.mpr (List.ne_nil_of_mem (List.mem_of_mem_head? leaf))
    split at single
    · obtain ⟨m, only⟩ := List.length_eq_one_iff.mp single
      rw [only] at leaf ⊢
      rw [Option.some.inj leaf]
    · omega
  nodeAt offset inside := by
    refine nodeAt?_eq summed (fun leaf => (visible leaf).resolve_left fun none => ?_) inside
    exact Nat.not_lt_zero offset (none ▸ inside)
  smallest range bytes inside := Node.descendantForRange?_spec t.language summed bytes inside

end Tree

namespace Parser

variable {p : Parser} {text : Text} {old : Option Tree}

/-- In a tree of a parse with a loaded language all ways of finding a node agree. -/
theorem nodes_found (usable : p.language.Usable) (arisen : ∀ t ∈ old, t.Arisen)
    (interrupts : Interrupts) : (p.parse text old interrupts).value.tree.Findings := by
  have summed := (Tree.Arisen.parse p text arisen interrupts).summed
  refine Tree.findings summed fun leaf => ?_
  have ending := Run.ending_outcome (p.task text) interrupts (p.oldRoot old)
  rw [tree_parse] at leaf ⊢
  generalize Run.outcome (p.task text) interrupts (p.oldRoot old) = outcome at ending leaf ⊢
  refine (Run.leaf_of_ending usable.valid ending leaf).imp_right fun error => ?_
  rw [Language.isVisible, show (outcome.root.symbol == Symbol.error) = true from error,
    Bool.true_or]

/-- In `ab` an empty node stands between the letters.  The byte behind it is that of the `b`. -/
theorem nested_nodes_found :
    let p : Parser := ⟨FlatGrammar.nestedLanguage, {}⟩
    let t := (p.parse nestedText none .never).value.tree
    p.language.Usable ∧ t.Findings ∧ t.leaves.map (·.span) = [⟨0, 1⟩, ⟨1, 1⟩, ⟨1, 2⟩] ∧
      ∃ n, t.leafAt? 1 = some n ∧ n.span = ⟨1, 2⟩ ∧
        t.rootNode.descendantForRange? t.language ⟨1, 2⟩ = t.nodeAt? 1 := by
  intro p t
  have usable : p.language.Usable := by
    obtain ⟨tables, loaded, scanner, -, loads, same⟩ := FlatGrammar.nestedLanguage_compiled
    exact ⟨loaded, scanner, Or.inl ⟨tables, loads⟩, same⟩
  have unaided : ∀ t ∈ (none : Option Tree), t.Arisen :=
    fun t ht => absurd ht (Option.not_mem_none t)
  have findings : t.Findings := nodes_found usable unaided .never
  have spans : t.leaves.map (·.span) = [⟨0, 1⟩, ⟨1, 1⟩, ⟨1, 2⟩] := by decide +kernel
  have length : t.textLength = 2 := by decide +kernel
  obtain ⟨n, leaf⟩ := Option.isSome_iff_exists.mp ((findings.leafAt 1).mpr (by omega))
  have mem : n ∈ t.leaves.filter fun m => m.span.contains 1 := by
    rw [findings.unique 1 n leaf]
    exact List.mem_singleton_self n
  obtain ⟨mem, holds⟩ := List.mem_filter.mp mem
  have listed := List.mem_map_of_mem (f := (·.span)) mem
  rw [spans] at listed
  refine ⟨usable, findings, spans, n, leaf, ?_, (findings.nodeAt 1 (by omega)).symm⟩
  simp only [List.mem_cons, List.not_mem_nil, or_false] at listed
  rcases listed with span | span | span
  · rw [span] at holds
    cases holds
  · rw [span] at holds
    cases holds
  · exact span

end Parser

end Glr
