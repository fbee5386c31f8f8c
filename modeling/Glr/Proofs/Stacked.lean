import Glr.Proofs.Hereditary
import Glr.Proofs.Laying
import Glr.Proofs.Sentences

/-!
# Where a stack stands

Each entry of a stack notes the place that its node ends at, and that place is never worked out
again: a reduction and a repair put a node over several entries and give it the place of the
topmost.  So the places are right only if a node is as long and as wide as what it is put over
(`Green.Joined`), and they are (`Stands`): each is the place below, moved on by the node.

The leaves under the nodes, leaving out the empty ones, are the text that the stack has read.  Nodes
come and go above them, an error opens up the errors it is put over, and what a missing token and an
empty production bring in is empty; so they change only where the stack moves on.
-/

namespace Glr

namespace Green

/-- The leaves of trees that are not empty, each with its symbol and its length. -/
def contents (gs : List Green) : List (Symbol × Nat) :=
  ((gs.flatMap leaves).filter fun c => 0 < c.length).map fun c => (c.symbol, c.length)

variable {g : Green} {gs : List Green}

@[simp] theorem contents_nil : contents [] = [] := rfl

theorem contents_append (gs hs : List Green) :
    contents (gs ++ hs) = contents gs ++ contents hs := by
  rw [contents, List.flatMap_append, List.filter_append, List.map_append]
  rfl

theorem contents_cons (g : Green) (gs : List Green) :
    contents (g :: gs) = contents [g] ++ contents gs := contents_append [g] gs

theorem contents_of_empty (leaf : g.children = []) (empty : g.length = 0) : contents [g] = [] := by
  simp [contents, leaves_of_leaf leaf, empty]

theorem contents_of_inner (inner : g.children ≠ []) : contents [g] = contents g.children := by
  rw [contents, List.flatMap_singleton, leaves_of_inner inner]
  rfl

/-- A node brings in nothing beside what it is put over. -/
theorem contents_of_spread (length : g.length = spread g.children) :
    contents [g] = contents g.children := by
  by_cases leaf : g.children = []
  · rw [leaf] at length ⊢
    exact contents_of_empty leaf length
  · exact contents_of_inner leaf

theorem contents_flatten (gs : List Green) : contents (Repair.flatten gs) = contents gs := by
  induction gs with
  | nil => rfl
  | cons g gs ih =>
    rcases Repair.flatten_cons g gs with ⟨-, some, opened⟩ | kept
    · rw [opened, contents_append, contents_cons, contents_of_inner some, ih]
    · rw [kept, contents_cons, contents_cons g gs, ih]

theorem contents_errorNode (gs : List Green) :
    contents [(Repair.errorNode gs).value] = contents gs :=
  (contents_of_spread (Repair.length_errorNode gs)).trans (contents_flatten gs)

theorem stretch_flatten (joined : ∀ g ∈ gs, g.Joined) :
    stretch (Repair.flatten gs) = stretch gs := by
  induction gs with
  | nil => rfl
  | cons g gs ih =>
    obtain ⟨head, rest⟩ := List.forall_mem_cons.mp joined
    rcases Repair.flatten_cons g gs with ⟨-, some, opened⟩ | kept
    · cases head with
      | intro _ _ extent => rw [opened, stretch_append, stretch_cons, ← extent some, ih rest]
    · rw [kept, stretch_cons, stretch_cons, ih rest]

end Green

namespace Position

/-- The place behind trees side by side. -/
def behind (p : Position) (gs : List Green) : Position :=
  ⟨p.offset + Green.spread gs, p.point.advance (Green.stretch gs)⟩

theorem behind_nil (p : Position) : p.behind [] = p := by
  rw [behind, Green.spread_nil, Green.stretch_nil, Nat.add_zero, Point.advance_zero]

theorem behind_append (p : Position) (gs hs : List Green) :
    p.behind (gs ++ hs) = (p.behind gs).behind hs := by
  rw [behind, behind, behind, Green.spread_append, Green.stretch_append, Nat.add_assoc,
    Point.advance_assoc]

/-- Behind a node that is as long and as wide as some trees is where it is behind them. -/
theorem value_advance {p : Position} {g : Green} {gs : List Green}
    (length : g.length = Green.spread gs) (extent : g.extent = Green.stretch gs) :
    (p.advance g).value = p.behind gs := by
  rw [behind, ← length, ← extent]
  rfl

theorem value_advance_single (p : Position) (g : Green) : (p.advance g).value = p.behind [g] :=
  value_advance (Nat.add_zero g.length).symm (Point.advance_zero g.extent).symm

end Position

/-! ## The places of a stack -/

/-- Each entry ends where the one below it does, moved on by its node. -/
def Chained : List StackEntry → Prop
  | [] => True
  | e :: below => e.stop = ((placeOver below).advance e.node).value ∧ Chained below

/-- A stack that stands at a place, with the leaves under its nodes. -/
structure Stands (place : Position) (contents : List (Symbol × Nat)) (es : List StackEntry) :
    Prop where
  joined : ∀ e ∈ es, e.node.Joined
  chained : Chained es
  place : placeOver es = place
  contents : Green.contents (nodesOf es) = contents

namespace Chained

variable {es taken below : List StackEntry}

theorem of_append (h : Chained (taken ++ below)) : Chained below := by
  induction taken with
  | nil => exact h
  | cons e taken ih => exact ih h.2

/-- The place of a stack is behind all of its nodes. -/
theorem placeOver_eq (h : Chained es) : placeOver es = Position.start.behind (nodesOf es) := by
  induction es with
  | nil => exact (Position.behind_nil _).symm
  | cons e below ih =>
    rw [nodesOf_cons, Position.behind_append, ← ih h.2, ← Position.value_advance_single]
    exact h.1

theorem placeOver_append (h : Chained (taken ++ below)) :
    placeOver (taken ++ below) = (placeOver below).behind (nodesOf taken) := by
  rw [h.placeOver_eq, nodesOf_append, Position.behind_append, ← h.of_append.placeOver_eq]

theorem placeOver_restate {trailing : List StackEntry} {state : StateId}
    (same : placeOver below = placeOver taken) :
    placeOver (trailing.map (fun e => { e with state }) ++ below) =
      placeOver (trailing ++ taken) := by
  cases trailing with
  | nil => exact same
  | cons e trailing => rfl

/-- Extras stay where they are when what is below them ends where it did. -/
theorem restate {trailing : List StackEntry} (h : Chained (trailing ++ taken))
    (lower : Chained below) (same : placeOver below = placeOver taken) (state : StateId) :
    Chained (trailing.map (fun e => { e with state }) ++ below) := by
  induction trailing with
  | nil => exact lower
  | cons e trailing ih =>
    refine ⟨?_, ih h.2⟩
    show e.stop = ((placeOver (trailing.map (fun e => { e with state }) ++ below)).advance
      e.node).value
    rw [placeOver_restate same]
    exact h.1

end Chained

namespace Stands

variable {place : Position} {contents : List (Symbol × Nat)} {es : List StackEntry}

theorem start : Stands Position.start [] [] :=
  ⟨fun _ he => absurd he List.not_mem_nil, trivial, rfl, rfl⟩

/-! ## Moving on -/

/-- Whatever is pushed, the stack moves on by it. -/
theorem push (h : Stands place contents es) {g : Green} (joined : g.Joined) {stop : Position}
    (moved : stop = (place.advance g).value) (state : StateId) (extra : Bool) :
    Stands stop (contents ++ Green.contents [g]) (⟨state, g, stop, extra⟩ :: es) where
  joined := List.forall_mem_cons.mpr ⟨joined, h.joined⟩
  chained := ⟨by rw [h.place]; exact moved, h.chained⟩
  place := rfl
  contents := by rw [nodesOf_cons, Green.contents_append, h.contents]

/-- An empty leaf leaves the stack where it is. -/
theorem empty (h : Stands place contents es) {leaf : Green} (isLeaf : leaf.children = [])
    (length : leaf.length = 0) (extent : leaf.extent = Point.zero) (state : StateId)
    (extra : Bool) : Stands place contents (⟨state, leaf, place, extra⟩ :: es) := by
  have here : (place.advance leaf).value = place.behind [] := Position.value_advance length extent
  have pushed := h.push (.of_leaf isLeaf) (here.trans (Position.behind_nil place)).symm state extra
  rwa [Green.contents_of_empty isLeaf length, List.append_nil] at pushed

/-- A node takes the place of the entries that it is put over. -/
theorem cover {taken below : List StackEntry} (h : Stands place contents (taken ++ below))
    {g : Green} (joined : g.Joined) (length : g.length = Green.spread (nodesOf taken))
    (extent : g.extent = Green.stretch (nodesOf taken))
    (inside : Green.contents [g] = Green.contents (nodesOf taken)) (state : StateId)
    (extra : Bool) : Stands place contents (⟨state, g, placeOver (taken ++ below), extra⟩ :: below)
    where
  joined := List.forall_mem_cons.mpr
    ⟨joined, fun e he => h.joined e (List.mem_append_right taken he)⟩
  chained := by
    refine ⟨?_, h.chained.of_append⟩
    rw [Position.value_advance length extent]
    exact h.chained.placeOver_append
  place := h.place
  contents := by
    rw [nodesOf_cons, Green.contents_append, inside, ← Green.contents_append, ← nodesOf_append,
      h.contents]

/-- Extras go back on top of what they were taken off, or of what ends at the same place. -/
theorem restate {trailing taken below : List StackEntry} {lower : Position}
    {inside : List (Symbol × Nat)} (h : Stands place contents (trailing ++ taken))
    (under : Stands lower inside taken) (instead : Stands lower inside below) (state : StateId) :
    Stands place contents (trailing.map (fun e => { e with state }) ++ below) where
  joined e he := by
    rcases List.mem_append.mp he with he | he
    · obtain ⟨f, hf, rfl⟩ := List.mem_map.mp he
      exact h.joined f (List.mem_append_left taken hf)
    · exact instead.joined e he
  chained := h.chained.restate instead.chained (instead.place.trans under.place.symm) state
  place := by
    rw [Chained.placeOver_restate (instead.place.trans under.place.symm)]
    exact h.place
  contents := by
    rw [nodesOf_append, Green.contents_append, nodesOf_restate, instead.contents, ← under.contents,
      ← Green.contents_append, ← nodesOf_append, h.contents]

theorem of_append {taken below : List StackEntry} (h : Stands place contents (taken ++ below)) :
    Stands (placeOver below) (Green.contents (nodesOf below)) below :=
  ⟨fun e he => h.joined e (List.mem_append_right taken he), h.chained.of_append, rfl, rfl⟩

/-! ## Reductions and repairs -/

theorem reduces {l : Language} {id : ProductionId} {es' : List StackEntry}
    (reduces : Stack.Reduces l id es es') (h : Stands place contents es) :
    Stands place contents es' := by
  cases reduces with
  | @intro trailing taken below p target lookahead fragile =>
    have joined : ∀ c ∈ nodesOf taken, c.Joined :=
      forall_mem_nodesOf.mpr fun e he => h.joined e (by simp [he])
    refine h.restate h.of_append (h.of_append.cover (Green.hereditary_joined.up ?_ ?_ ?_) ?_ ?_ ?_
      _ _) target
    · exact joined
    · exact Green.length_node _ _
    · exact Green.extent_node _ _
    · exact Green.length_node _ _
    · exact Green.extent_node _ _
    · exact Green.contents_of_spread (Green.length_node _ _)

theorem reduce? {l : Language} {s : Stack} {id : ProductionId} {la : Lookahead} {fragile : Bool}
    {c : Checked Stack} (h : Stands place contents s.entries)
    (reduced : s.reduce? l id la fragile = some c) : Stands place contents c.value.entries :=
  h.reduces (Stack.reduces_of_reduce? reduced)

/-- Entries give way to an error over trees that are as long and as wide as theirs. -/
theorem coverError {taken below : List StackEntry} (h : Stands place contents (taken ++ below))
    {gs : List Green} (joined : ∀ g ∈ gs, g.Joined)
    (length : Green.spread gs = Green.spread (nodesOf taken))
    (extent : Green.stretch gs = Green.stretch (nodesOf taken))
    (inside : Green.contents gs = Green.contents (nodesOf taken)) (state : StateId) :
    Stands place contents
      (⟨state, (Repair.errorNode gs).value, placeOver (taken ++ below), true⟩ :: below) := by
  refine h.cover (Green.hereditary_joined.errorNode joined) ?_ ?_ ?_ state true
  · rw [Repair.length_errorNode, Repair.spread_flatten fun g hg => (joined g hg).summed, length]
  · exact (Green.extent_node _ _).trans ((Green.stretch_flatten joined).trans extent)
  · rw [Green.contents_errorNode, inside]

theorem wrap {l : Language} {s : Stack} {t : Symbol} {allowed : Nat} {c : Checked (Stack × Nat)}
    (h : Stands place contents s.entries) (wrapped : Repair.wrap l s t allowed = some c) :
    Stands place contents c.value.1.entries := by
  obtain ⟨taken, below, entries, -, result⟩ := Repair.wrap_spec wrapped
  rw [result, Stack.position_eq, entries]
  rw [entries] at h
  refine h.coverError (forall_mem_nodesOf.mpr fun e he => ?_) rfl rfl rfl _
  exact h.joined e (List.mem_append_left _ he)

theorem skip {s : Stack} {leaf : Green} (h : Stands place contents s.entries)
    (joined : leaf.Joined) {stop : Position} (moved : stop = (place.advance leaf).value)
    (cost : Nat) : Stands stop (contents ++ Green.contents [leaf])
      (Repair.skip s leaf stop cost).value.entries := by
  obtain ⟨taken, below, children, entries, takes, result⟩ := Repair.skip_spec s leaf stop cost
  rw [result]
  rw [entries] at h
  -- The leaf as if it were pushed by itself; the error then goes over it and what it takes in.
  have pushed : Stands stop (contents ++ Green.contents [leaf])
      ((⟨stateOver below, leaf, stop, true⟩ :: taken) ++ below) := h.push joined moved _ _
  have known : ∀ e ∈ taken, e.node.Joined := fun e he => h.joined e (List.mem_append_left _ he)
  have below' : ∀ g ∈ children, g.Joined := takes.forall_mem Green.hereditary_joined.down known
  have inside : Green.spread children = Green.spread (nodesOf taken) ∧
      Green.stretch children = Green.stretch (nodesOf taken) ∧
      Green.contents children = Green.contents (nodesOf taken) := by
    cases takes with
    | nothing => exact ⟨rfl, rfl, rfl⟩
    | @error extras e plain extra wrong inner =>
      have some := Green.children_ne_nil inner
      have own : e.node.Joined := known e (by simp)
      rw [nodesOf_append, nodesOf_cons, nodesOf_nil, List.nil_append, List.singleton_append]
      cases own with
      | intro under length extent =>
        refine ⟨?_, ?_, ?_⟩
        · rw [Green.spread_append, Green.spread_cons, length some]
        · rw [Green.stretch_append, Green.stretch_cons, extent some]
        · rw [Green.contents_append, Green.contents_cons, Green.contents_of_inner some]
  obtain ⟨length, extent, same⟩ := inside
  refine pushed.coverError ?_ ?_ ?_ ?_ _
  · exact List.forall_mem_append.mpr ⟨below', List.forall_mem_singleton.mpr joined⟩
  · rw [nodesOf_cons, Green.spread_append, Green.spread_append, length]
  · rw [nodesOf_cons, Green.stretch_append, Green.stretch_append, extent]
  · rw [nodesOf_cons, Green.contents_append, Green.contents_append, same]

end Stands

end Glr
