import Glr.Proofs.Places

/-!
# The walk over an old tree misses nothing

The nodes that are not empty and start at one offset are on one way down: from the outermost of them
to its first child that is not empty, and so on until there is a leaf (`Green.Leading`).  A cursor
that is asked for the offset gives them in this order, one more each time the caller steps into the
last.

What a cursor has ahead says what it will still give.  For each offset these are the nodes found in
the trees ahead (`ReuseCursor.found`), and every move of the cursor keeps them for all offsets that
are still to come: a tree is dropped when it ends before all of these, and opened when it starts
before all of these.  Stepping into a node takes off that node and nothing else.  So how far a
caller went down at one offset does not show at a later one.

The lengths in the tree must add up.  In a tree where a child reaches beyond its parent, what is
dropped with the parent may still be ahead.
-/

namespace Glr

namespace Green

variable {g h root : Green} {gs l : List Green} {offset start : Nat}

/-! ## What starts at an offset -/

/-- The nodes of a tree that are not empty and start at an offset, each before those below it. -/
def starting (root : Green) (offset : Nat) : List Green :=
  ((Place.walk [] 0 Point.zero [] root).filter fun v =>
    v.1.offset = offset ∧ 0 < v.1.green.length).map (·.1.green)

/-- A way down over first children that are not empty, to a leaf. -/
inductive Leading : Green → List Green → Prop where
  | leaf {g : Green} (leaf : g.children = []) : Leading g [g]
  | child {g h : Green} {l : List Green}
      (first : g.children.find? (fun c => 0 < c.length) = some h) (rest : Leading h l) :
      Leading g (g :: l)

mutual

/-- The nodes that are not empty and start at an offset, in a tree with a start of its own. -/
def startingAt (offset start : Nat) : Green → List Green
  | mk d cs =>
    if start = offset ∧ 0 < d.length then mk d cs :: startingIn offset start cs
    else startingIn offset start cs

/-- The nodes that are not empty and start at an offset, in trees side by side. -/
def startingIn (offset start : Nat) : List Green → List Green
  | [] => []
  | g :: gs => startingAt offset start g ++ startingIn offset (start + g.length) gs

end

mutual

theorem starting_walk (offset : Nat) : ∀ (g : Green) (ps : List Place) (start : Nat)
    (position : Point) (address : List Nat),
    ((Place.walk ps start position address g).filter fun v =>
      v.1.offset = offset ∧ 0 < v.1.green.length).map (·.1.green) = startingAt offset start g
  | .mk d cs, ps, start, position, address => by
    have below := starting_walkIn offset cs (⟨.mk d cs, start, position, address⟩ :: ps) start
      position address 0
    rw [Place.walk, List.filter_cons, startingAt, ← below]
    split
    · next shown =>
      have here : start = offset ∧ 0 < d.length := of_decide_eq_true shown
      rw [if_pos here, List.map_cons]
    · next hidden =>
      have elsewhere : ¬(start = offset ∧ 0 < d.length) := fun here =>
        hidden (decide_eq_true here)
      rw [if_neg elsewhere]

theorem starting_walkIn (offset : Nat) : ∀ (gs : List Green) (ps : List Place) (start : Nat)
    (position : Point) (address : List Nat) (index : Nat),
    ((Place.walkIn ps start position address index gs).filter fun v =>
      v.1.offset = offset ∧ 0 < v.1.green.length).map (·.1.green) = startingIn offset start gs
  | [], _, _, _, _, _ => by rw [Place.walkIn, startingIn]; rfl
  | g :: gs, ps, start, position, address, index => by
    rw [Place.walkIn, startingIn, List.filter_append, List.map_append,
      starting_walk offset g, starting_walkIn offset gs]

end

theorem starting_eq (root : Green) (offset : Nat) :
    root.starting offset = startingAt offset 0 root :=
  starting_walk offset root [] 0 Point.zero []

mutual

/-- Nothing starts behind a tree or, if it is empty, at its end. -/
theorem startingAt_of_ends : ∀ {g : Green} {start : Nat}, g.Summed → start + g.length ≤ offset →
    startingAt offset start g = []
  | .mk d cs, start, summed, ends => by
    have length : (mk d cs).length = d.length := rfl
    have within : spread cs ≤ d.length := summed.spread_le
    rw [startingAt, if_neg (by omega)]
    have below : ∀ c ∈ cs, c.Summed := summed.of_mem
    exact startingIn_of_ends below (by omega)

theorem startingIn_of_ends : ∀ {cs : List Green} {start : Nat}, (∀ c ∈ cs, c.Summed) →
    start + spread cs ≤ offset → startingIn offset start cs = []
  | [], _, _, _ => by rw [startingIn]
  | g :: gs, start, summed, ends => by
    rw [spread_cons] at ends
    rw [startingIn, startingAt_of_ends (summed g List.mem_cons_self) (by omega),
      startingIn_of_ends (fun c hc => summed c (List.mem_cons_of_mem g hc)) (by omega)]
    rfl

end

mutual

/-- Nothing starts before a tree does. -/
theorem startingAt_of_lt : ∀ (g : Green) {start : Nat}, offset < start →
    startingAt offset start g = []
  | .mk d cs, start, before => by
    rw [startingAt, if_neg (by omega)]
    exact startingIn_of_lt cs before

theorem startingIn_of_lt : ∀ (gs : List Green) {start : Nat}, offset < start →
    startingIn offset start gs = []
  | [], _, _ => by rw [startingIn]
  | g :: gs, start, before => by
    rw [startingIn, startingAt_of_lt g before, startingIn_of_lt gs (by omega)]
    rfl

end

theorem startingAt_of_ne {start : Nat} (other : start ≠ offset) (g : Green) :
    startingAt offset start g = startingIn offset start g.children := by
  obtain ⟨d, cs⟩ := g
  rw [startingAt, if_neg (by omega)]
  rfl

theorem startingAt_self {g : Green} (wide : 0 < g.length) :
    startingAt offset offset g = g :: startingIn offset offset g.children := by
  obtain ⟨d, cs⟩ := g
  rw [startingAt, if_pos ⟨rfl, wide⟩]
  rfl

/-! ## They are on one way down -/

/-- Of trees side by side, those before the first that is not empty have nothing, and those behind
it start later. -/
theorem startingIn_self {gs : List Green} (summed : ∀ g ∈ gs, g.Summed) :
    startingIn offset offset gs =
      ((gs.find? fun c => 0 < c.length).map (startingAt offset offset)).getD [] := by
  induction gs with
  | nil => rw [startingIn]; rfl
  | cons g gs ih =>
    rw [startingIn, List.find?_cons]
    by_cases wide : 0 < g.length
    · rw [startingIn_of_lt gs (by omega)]
      simp [wide]
    · have none : g.length = 0 := by omega
      rw [startingAt_of_ends (summed g List.mem_cons_self) (by omega), none, Nat.add_zero,
        ih fun c hc => summed c (List.mem_cons_of_mem g hc)]
      simp

/-- Of trees side by side that are not all empty, one is the first that is not. -/
theorem exists_find? {gs : List Green} (wide : 0 < spread gs) :
    ∃ h, gs.find? (fun c => 0 < c.length) = some h := by
  induction gs with
  | nil => simp at wide
  | cons g gs ih =>
    rw [spread_cons] at wide
    by_cases here : 0 < g.length
    · exact ⟨g, List.find?_cons_of_pos (by simpa using here)⟩
    · rw [List.find?_cons_of_neg (by simpa using here)]
      exact ih (by omega)

/-- What starts where a tree does leads from it to a leaf. -/
theorem leading_startingAt (summed : g.Summed) (wide : 0 < g.length) :
    Leading g (startingAt offset offset g) := by
  induction summed with
  | @intro g below length ih =>
    rw [startingAt_self wide]
    by_cases leaf : g.children = []
    · rw [leaf, startingIn]
      exact .leaf leaf
    · obtain ⟨h, first⟩ := exists_find? ((length leaf).symm ▸ wide)
      rw [startingIn_self below, first]
      exact .child first (ih h (List.mem_of_find?_eq_some first)
        (by simpa using List.find?_some first))

/-- In trees side by side, what starts at an offset does so in one of them. -/
theorem startingIn_cases {gs : List Green} (summed : ∀ g ∈ gs, g.Summed) (start : Nat) :
    startingIn offset start gs = [] ∨
      ∃ g ∈ gs, ∃ start', startingIn offset start gs = startingAt offset start' g := by
  induction gs generalizing start with
  | nil => exact Or.inl (by rw [startingIn])
  | cons g gs ih =>
    rw [startingIn]
    by_cases ends : start + g.length ≤ offset
    · rw [startingAt_of_ends (summed g List.mem_cons_self) ends, List.nil_append]
      refine (ih (fun c hc => summed c (List.mem_cons_of_mem g hc)) _).imp_right ?_
      rintro ⟨h, hh, start', same⟩
      exact ⟨h, List.mem_cons_of_mem g hh, start', same⟩
    · rw [startingIn_of_lt gs (by omega), List.append_nil]
      exact Or.inr ⟨g, List.mem_cons_self, start, rfl⟩

theorem startingAt_cases (summed : g.Summed) (start : Nat) :
    startingAt offset start g = [] ∨
      ∃ h, 0 < h.length ∧ Leading h (startingAt offset start g) := by
  induction summed generalizing start with
  | @intro g below length ih =>
    have summed : g.Summed := .intro below length
    by_cases here : start = offset
    · subst here
      by_cases wide : 0 < g.length
      · exact Or.inr ⟨g, wide, leading_startingAt summed wide⟩
      · exact Or.inl (startingAt_of_ends summed (by omega))
    · rw [startingAt_of_ne here]
      rcases startingIn_cases below start with none | ⟨c, hc, start', same⟩
      · exact Or.inl none
      · rw [same]
        exact ih c hc start'

theorem Leading.head? (leading : Leading g l) : l.head? = some g := by
  cases leading <;> rfl

theorem firstLeafIn?_eq {gs : List Green} (first : gs.find? (fun c => 0 < c.length) = some h) :
    firstLeafIn? gs = h.firstLeaf? := by
  induction gs with
  | nil => cases first
  | cons g gs ih =>
    rw [firstLeafIn?]
    by_cases here : 0 < g.length
    · rw [List.find?_cons_of_pos (by simpa using here)] at first
      rw [if_pos here, Option.some.inj first]
    · rw [List.find?_cons_of_neg (by simpa using here)] at first
      rw [if_neg here, ih first]

/-- The last on the way down is the first leaf. -/
theorem Leading.firstLeaf? (leading : Leading g l) (wide : 0 < g.length) :
    g.firstLeaf? = l.getLast? := by
  induction leading with
  | @leaf g leaf =>
    obtain ⟨d, cs⟩ := g
    obtain rfl : cs = [] := leaf
    have wide : d.length ≠ 0 := Nat.ne_of_gt wide
    simp [Green.firstLeaf?, wide]
  | @child g h l first rest ih =>
    obtain ⟨d, cs⟩ := g
    obtain ⟨c, cs', more⟩ : ∃ c cs', cs = c :: cs' := List.exists_cons_of_ne_nil
      (List.ne_nil_of_mem (List.mem_of_find?_eq_some first))
    have wide : d.length ≠ 0 := Nat.ne_of_gt wide
    have down : (mk d cs).firstLeaf? = h.firstLeaf? := by
      rw [Green.firstLeaf?, if_neg wide, if_neg (by simp [more])]
      exact firstLeafIn?_eq first
    rw [down, ih (by simpa using List.find?_some first), List.getLast?_cons]
    cases rest <;> simp [List.getLast?_cons]

end Green

namespace ReuseCursor

variable {root g : Green} {c c' : ReuseCursor} {offset later n : Nat} {ps : List Pending}

/-! ## What a cursor has ahead -/

/-- The nodes that are not empty and start at an offset, in the trees ahead. -/
def found (offset : Nat) (ps : List Pending) : List Green :=
  ps.flatMap fun p => Green.startingAt offset p.start p.green

/-- The trees ahead stand one after the other, and the lengths in each add up. -/
structure InOrder (ps : List Pending) : Prop where
  ordered : ps.Pairwise fun p q => p.start + p.green.length ≤ q.start
  summed : ∀ p ∈ ps, p.green.Summed

theorem found_place (offset start : Nat) (gs : List Green) :
    found offset (place start gs) = Green.startingIn offset start gs := by
  induction gs generalizing start with
  | nil => rw [place, Green.startingIn]; rfl
  | cons g gs ih =>
    rw [place, Green.startingIn, ← ih]
    rfl

theorem found_append (offset : Nat) (ps qs : List Pending) :
    found offset (ps ++ qs) = found offset ps ++ found offset qs := List.flatMap_append

theorem found_cons (offset : Nat) (p : Pending) (ps : List Pending) :
    found offset (p :: ps) = Green.startingAt offset p.start p.green ++ found offset ps :=
  List.flatMap_cons

/-- Nothing is found before the first tree. -/
theorem InOrder.found_eq_nil {p : Pending} (h : InOrder (p :: ps)) (before : offset < p.start) :
    found offset (p :: ps) = [] := by
  refine List.flatMap_eq_nil_iff.mpr fun q hq => Green.startingAt_of_lt q.green ?_
  rcases List.mem_cons.mp hq with rfl | hq
  · exact before
  · have := (List.pairwise_cons.mp h.ordered).1 q hq
    omega

theorem InOrder.tail {p : Pending} (h : InOrder (p :: ps)) : InOrder ps :=
  ⟨h.ordered.tail, fun q hq => h.summed q (List.mem_cons_of_mem p hq)⟩

theorem place_within {start : Nat} {gs : List Green} {p : Pending} (h : p ∈ place start gs) :
    start ≤ p.start ∧ p.start + p.green.length ≤ start + Green.spread gs ∧ p.green ∈ gs := by
  induction gs generalizing start with
  | nil => cases h
  | cons g gs ih =>
    rw [Green.spread_cons]
    rcases List.mem_cons.mp h with rfl | h
    · exact ⟨Nat.le_refl _, by dsimp only; omega, List.mem_cons_self⟩
    · obtain ⟨first, last, mem⟩ := ih h
      exact ⟨by omega, by omega, List.mem_cons_of_mem g mem⟩

theorem place_ordered (start : Nat) (gs : List Green) :
    (place start gs).Pairwise fun p q => p.start + p.green.length ≤ q.start := by
  induction gs generalizing start with
  | nil => exact .nil
  | cons g gs ih => exact List.pairwise_cons.mpr ⟨fun q hq => (place_within hq).1, ih _⟩

/-- A tree stays in its place when it is opened. -/
theorem InOrder.opened {p : Pending} (h : InOrder (p :: ps)) : InOrder (opened p ++ ps) := by
  obtain ⟨first, rest⟩ := List.pairwise_cons.mp h.ordered
  have summed := h.summed p List.mem_cons_self
  constructor
  · refine List.pairwise_append.mpr ⟨place_ordered _ _, rest, fun q hq r hr => ?_⟩
    have := (place_within hq).2.1
    have := summed.spread_le
    have := first r hr
    omega
  · intro q hq
    rcases List.mem_append.mp hq with hq | hq
    · exact summed.of_mem _ (place_within hq).2.2
    · exact h.tail.summed q hq

/-! ## Moving on -/

/-- One move of a cursor that looks for an offset: past a tree that ends at it or before, or into
one that starts before it and ends behind it. -/
inductive Moves (offset : Nat) : List Pending → List Pending → Prop where
  | pass {p : Pending} {ps : List Pending} (ends : p.start + p.green.length ≤ offset) :
      Moves offset (p :: ps) ps
  | enter {p : Pending} {ps : List Pending} (ends : offset < p.start + p.green.length)
      (before : p.start < offset) : Moves offset (p :: ps) (opened p ++ ps)

namespace Moves

variable {qs : List Pending}

/-- Each move leaves less ahead. -/
theorem weight_lt (h : Moves offset ps qs) : weight qs < weight ps := by
  cases h with
  | @pass p _ _ =>
    have := weight_opened p
    rw [weight]
    omega
  | @enter p _ _ _ =>
    have := weight_opened p
    rw [weight, weight_append]
    omega

theorem acc (offset : Nat) (ps : List Pending) : Acc (fun qs ps => Moves offset ps qs) ps :=
  Subrelation.accessible weight_lt (InvImage.accessible weight (Nat.lt_wfRel.wf.apply _))

/-- A move keeps the order of what is ahead, and what is found from the offset on. -/
theorem keeps (h : Moves offset ps qs) (inOrder : InOrder ps) :
    InOrder qs ∧ ∀ later, offset ≤ later → found later qs = found later ps := by
  cases h with
  | @pass p _ ends =>
    refine ⟨inOrder.tail, fun later le => ?_⟩
    have gone := Green.startingAt_of_ends (inOrder.summed p List.mem_cons_self)
      (ends.trans le)
    rw [found_cons, gone]
    rfl
  | @enter p _ _ before =>
    refine ⟨inOrder.opened, fun later le => ?_⟩
    rw [found_cons, found_append, opened, found_place,
      Green.startingAt_of_ne (Nat.ne_of_lt (before.trans_le le))]

theorem keeps_all (h : Relation.ReflTransGen (Moves offset) ps qs) (inOrder : InOrder ps) :
    InOrder qs ∧ ∀ later, offset ≤ later → found later qs = found later ps := by
  induction h with
  | refl => exact ⟨inOrder, fun _ _ => rfl⟩
  | tail _ move ih =>
    obtain ⟨inOrder, same⟩ := ih
    obtain ⟨inOrder, same'⟩ := move.keeps inOrder
    exact ⟨inOrder, fun later le => (same' later le).trans (same later le)⟩

end Moves

/-- Seeking makes moves for as long as there are any. -/
theorem seekIn_moves (offset : Nat) (ps : List Pending) :
    Relation.ReflTransGen (Moves offset) ps (seekIn offset ps) ∧
      ∀ qs, ¬Moves offset (seekIn offset ps) qs := by
  fun_induction seekIn offset ps with
  | case1 =>
    refine ⟨.refl, fun qs move => ?_⟩
    cases move
  | case2 p rest ends ih => exact ⟨.head (.pass ends) ih.1, ih.2⟩
  | case3 p rest ends before ih => exact ⟨.head (.enter (by omega) before) ih.1, ih.2⟩
  | case4 p rest ends before =>
    refine ⟨.refl, fun qs move => ?_⟩
    cases move <;> omega

theorem ahead_seek (c : ReuseCursor) (offset : Nat) :
    (c.seek offset).2.ahead = seekIn offset c.ahead := by
  rw [seek]
  cases seekIn offset c.ahead <;> rfl

theorem seek_keeps (inOrder : InOrder c.ahead) (offset : Nat) :
    InOrder (c.seek offset).2.ahead ∧ ∀ later, offset ≤ later →
      found later (c.seek offset).2.ahead = found later c.ahead := by
  rw [ahead_seek]
  exact Moves.keeps_all (seekIn_moves offset c.ahead).1 inOrder

/-- After seeking, a tree at the offset is ahead, or all that is ahead starts later. -/
theorem seek_cases (c : ReuseCursor) (offset : Nat) :
    (∃ g ps, c.seek offset = (some g, ⟨⟨g, offset⟩ :: ps⟩) ∧ 0 < g.length) ∨
      ∃ ps, c.seek offset = (none, ⟨ps⟩) ∧ ∀ p ∈ ps.head?, offset < p.start := by
  obtain ⟨-, stuck⟩ := seekIn_moves offset c.ahead
  rw [seek]
  cases here : seekIn offset c.ahead with
  | nil => exact Or.inr ⟨[], rfl, by simp⟩
  | cons p ps =>
    rw [here] at stuck
    have ends : offset < p.start + p.green.length := by
      by_contra passed
      exact stuck _ (.pass (by omega))
    have notBefore : ¬p.start < offset := fun before => stuck _ (.enter ends before)
    dsimp only
    by_cases stands : p.start = offset
    · subst stands
      exact Or.inl ⟨p.green, ps, by rw [if_pos rfl], by omega⟩
    · refine Or.inr ⟨p :: ps, by rw [if_neg stands], fun q hq => ?_⟩
      obtain rfl : p = q := by simpa using hq
      omega

/-- Seeking gives the first node that is found at the offset. -/
theorem seek_eq (inOrder : InOrder c.ahead) (offset : Nat) :
    (c.seek offset).1 = (found offset c.ahead).head? := by
  obtain ⟨inOrder', same⟩ := seek_keeps inOrder offset
  rw [← same offset (Nat.le_refl _)]
  rcases seek_cases c offset with ⟨g, ps, gave, wide⟩ | ⟨ps, gave, behind⟩
  · rw [gave, found_cons, Green.startingAt_self wide]
    rfl
  · rw [gave] at inOrder' ⊢
    cases ps with
    | nil => rfl
    | cons p ps => rw [inOrder'.found_eq_nil (behind p rfl), List.head?_nil]

/-- Stepping into the node that seeking gave takes off that node, and nothing that starts later. -/
theorem descend_keeps (inOrder : InOrder c.ahead) (gave : c.seek offset = (some g, c')) :
    InOrder c'.descend.ahead ∧ found offset c.ahead = g :: found offset c'.descend.ahead ∧
      ∀ later, offset < later → found later c'.descend.ahead = found later c.ahead := by
  obtain ⟨inOrder', same⟩ := seek_keeps inOrder offset
  rcases seek_cases c offset with ⟨g', ps, gave', wide⟩ | ⟨ps, gave', -⟩
  · obtain ⟨same_node, rfl⟩ := Prod.mk.inj (gave'.symm.trans gave)
    obtain rfl : g' = g := Option.some.inj same_node
    rw [gave] at inOrder' same
    have opens : ∀ later, found later (ReuseCursor.mk (⟨g', offset⟩ :: ps)).descend.ahead =
        Green.startingIn later offset g'.children ++ found later ps := by
      intro later
      rw [descend, found_append, opened, found_place]
    refine ⟨inOrder'.opened, ?_, fun later lt => ?_⟩
    · rw [← same offset (Nat.le_refl _), opens, found_cons, Green.startingAt_self wide]
      rfl
    · rw [← same later lt.le, opens, found_cons, Green.startingAt_of_ne (Nat.ne_of_lt lt)]
  · cases gave'.symm.trans gave

/-! ## Asking -/

/-- How a cursor can have been asked so far: for offsets that do not decrease, and after a node was
given it may have been told to step into it.  The last offset is noted, and how many of the nodes
there it has stepped into. -/
inductive Asked (root : Green) : Nat → Nat → ReuseCursor → Prop where
  | fresh : Asked root 0 0 (ofTree root)
  | seek {offset later n : Nat} {c : ReuseCursor} (asked : Asked root offset n c)
      (le : offset ≤ later) : Asked root later (if later = offset then n else 0) (c.seek later).2
  | descend {offset n : Nat} {c c' : ReuseCursor} {g : Green} (asked : Asked root offset n c)
      (gave : c.seek offset = (some g, c')) : Asked root offset (n + 1) c'.descend

/-- What a cursor gives for an offset to a caller that steps into every node. -/
def drain (offset : Nat) (c : ReuseCursor) : List Green :=
  match _h : c.seek offset with
  | (some g, c') => g :: drain offset c'.descend
  | (none, _) => []
termination_by weight c.ahead
decreasing_by exact weight_descend_lt _h

theorem drain_eq (inOrder : InOrder c.ahead) : c.drain offset = found offset c.ahead := by
  fun_induction drain offset c with
  | case1 c g c' gave ih =>
    obtain ⟨inOrder', first, -⟩ := descend_keeps inOrder gave
    rw [ih inOrder', first]
  | case2 c c' gave =>
    have none := seek_eq inOrder offset
    rw [gave] at none
    exact (List.head?_eq_none_iff.mp none.symm).symm

/-- A cursor that was asked has ahead, of the last offset, the nodes that it has not stepped into,
and everything that starts later. -/
theorem Asked.ahead (summed : root.Summed) (asked : Asked root offset n c) :
    InOrder c.ahead ∧ found offset c.ahead = (root.starting offset).drop n ∧
      ∀ later, offset < later → found later c.ahead = root.starting later := by
  induction asked with
  | fresh =>
    have all : ∀ offset, found offset (ofTree root).ahead = root.starting offset := by
      intro offset
      rw [Green.starting_eq]
      exact List.append_nil _
    exact ⟨⟨List.pairwise_singleton _ _, by simpa [ofTree] using summed⟩, all 0,
      fun later _ => all later⟩
  | @seek offset later n c _ le ih =>
    obtain ⟨inOrder, here, further⟩ := ih
    obtain ⟨inOrder', same⟩ := seek_keeps inOrder later
    refine ⟨inOrder', ?_, fun last lt => ?_⟩
    · rw [same later (Nat.le_refl _)]
      split
      · next again => rw [again, here]
      · next other => rw [further later (by omega), List.drop_zero]
    · rw [same last lt.le, further last (by omega)]
  | descend _ gave ih =>
    obtain ⟨inOrder, here, further⟩ := ih
    obtain ⟨inOrder', first, same⟩ := descend_keeps inOrder gave
    refine ⟨inOrder', ?_, fun later lt => (same later lt).trans (further later lt)⟩
    rw [← List.tail_drop, ← here, first, List.tail_cons]

/-- A cursor over a tree misses nothing.  However it was asked before, for each offset that is not
below the last it gives the outermost node that is not empty and starts there, if there is one, and
to a caller that goes on stepping into what it gives it gives all of them, down to the first leaf;
if the offset is the last, those that the caller has not stepped into yet.  Its moves come to an
end. -/
theorem seek_misses_nothing (summed : root.Summed) (asked : Asked root offset n c) :
    (c.seek offset).1 = (root.starting offset)[n]? ∧
    c.drain offset = (root.starting offset).drop n ∧
    (∀ later, offset < later → (c.seek later).1 = (root.starting later).head? ∧
      c.drain later = root.starting later) ∧
    (∀ o, ∀ g ∈ (root.starting o).head?,
      Green.Leading g (root.starting o) ∧ g.firstLeaf? = (root.starting o).getLast?) ∧
    ∀ o, Acc (fun qs ps => Moves o ps qs) c.ahead ∧
      Relation.ReflTransGen (Moves o) c.ahead (c.seek o).2.ahead ∧
      ∀ qs, ¬Moves o (c.seek o).2.ahead qs := by
  obtain ⟨inOrder, here, further⟩ := asked.ahead summed
  refine ⟨?_, ?_, fun later lt => ⟨?_, ?_⟩, fun o g hg => ?_, fun o => ?_⟩
  · rw [seek_eq inOrder, here, List.head?_drop]
  · rw [drain_eq inOrder, here]
  · rw [seek_eq inOrder, further later lt]
  · rw [drain_eq inOrder, further later lt]
  · rw [Green.starting_eq] at hg ⊢
    have cases : Green.startingAt o 0 root = [] ∨ _ := Green.startingAt_cases summed 0
    rcases cases with none | ⟨h, wide, leading⟩
    · rw [none] at hg
      cases hg
    · obtain rfl : h = g := Option.some.inj (leading.head?.symm.trans hg)
      exact ⟨leading, leading.firstLeaf? wide⟩
  · rw [ahead_seek]
    exact ⟨Moves.acc o c.ahead, seekIn_moves o c.ahead⟩

/-- A node that begins with an empty one. -/
def indented : Green :=
  Green.mk { (default : NodeData) with symbol := 5, length := 3 }
    [Green.mk { (default : NodeData) with symbol := 2 } [],
      Green.mk { (default : NodeData) with symbol := 3, length := 1 } [],
      Green.mk { (default : NodeData) with symbol := 4, length := 2 } []]

theorem summed_indented : indented.Summed := by
  have token (d : NodeData) : (Green.mk d []).Summed :=
    .intro (by simp [Green.children]) (by simp [Green.children])
  exact .intro (by simp [indented, Green.children, token]) fun _ => rfl

theorem seek_indented : (ofTree indented).seek 0 = (some indented, ofTree indented) := by
  simp [seek, seekIn, ofTree, indented, Green.length, Green.data]

/-- One step into the tree: what starts at the same offset, and what starts behind it. -/
theorem seek_misses_nothing_indented :
    indented.Summed ∧ Asked indented 0 1 (ofTree indented).descend ∧
      ((ofTree indented).descend.seek 0).1 = (indented.starting 0)[1]? ∧
      ((ofTree indented).descend.seek 1).1 = (indented.starting 1).head? := by
  have asked : Asked indented 0 1 (ofTree indented).descend := .descend .fresh seek_indented
  obtain ⟨here, -, further, -⟩ := seek_misses_nothing summed_indented asked
  exact ⟨summed_indented, asked, here, (further 1 Nat.one_pos).1⟩

end ReuseCursor

end Glr
