import Glr.Parser.Recover
import Glr.Parser.Shift
import Glr.Proofs.Earned
import Glr.Proofs.Laid
import Glr.Proofs.Ranking

/-!
# What a parse goes by

A tree notes more than a parse ever looks at again: the mode that a token was lexed in, the state
that a token was made for, and how far a reduction looked ahead.  These are for the next edit, and
they depend on what was taken over from an old tree and on when.  The gist of a tree is all the
rest, and the gist of a stack, whose places are left out too, is all that the further course of a
parse depends on.

Every builder and every choice between stacks is compared here with itself on gists.
-/

namespace Glr

namespace Green

mutual

/-- A tree without what only reuse looks at. -/
def gist : Green → Green
  | mk d cs =>
    mk { d with
      lookahead := if d.production.isSome then 0 else d.lookahead
      parseState := if d.production.isSome then d.parseState else 0
      lexMode := 0
      mark := none } (gists cs)

def gists : List Green → List Green
  | [] => []
  | g :: gs => gist g :: gists gs

end

variable {g h : Green} {gs hs : List Green}

theorem gists_eq (gs : List Green) : gists gs = gs.map gist := by
  induction gs with
  | nil => rfl
  | cons g gs ih => rw [gists, ih, List.map_cons]

@[simp] theorem children_gist (g : Green) : g.gist.children = g.children.map gist := by
  obtain ⟨d, cs⟩ := g
  rw [gist, gists_eq]
  rfl

@[simp] theorem symbol_gist (g : Green) : g.gist.symbol = g.symbol := by
  obtain ⟨d, cs⟩ := g
  rw [gist]
  rfl

@[simp] theorem length_gist (g : Green) : g.gist.length = g.length := by
  obtain ⟨d, cs⟩ := g
  rw [gist]
  rfl

@[simp] theorem extent_gist (g : Green) : g.gist.extent = g.extent := by
  obtain ⟨d, cs⟩ := g
  rw [gist]
  rfl

@[simp] theorem production_gist (g : Green) : g.gist.production = g.production := by
  obtain ⟨d, cs⟩ := g
  rw [gist]
  rfl

@[simp] theorem dynamicPrecedence_gist (g : Green) :
    g.gist.dynamicPrecedence = g.dynamicPrecedence := by
  obtain ⟨d, cs⟩ := g
  rw [gist]
  rfl

@[simp] theorem flags_gist (g : Green) : g.gist.flags = g.flags := by
  obtain ⟨d, cs⟩ := g
  rw [gist]
  rfl

@[simp] theorem isExtra_gist (g : Green) : g.gist.isExtra = g.isExtra := by
  rw [isExtra, flags_gist, isExtra]

@[simp] theorem hasError_gist (g : Green) : g.gist.hasError = g.hasError := by
  rw [hasError, flags_gist, hasError]

@[simp] theorem isFragile_gist (g : Green) : g.gist.isFragile = g.isFragile := by
  rw [isFragile, flags_gist, isFragile]

@[simp] theorem isDamaged_gist (g : Green) : g.gist.isDamaged = g.isDamaged := by
  rw [isDamaged, flags_gist, isDamaged]

@[simp] theorem isError_gist (g : Green) : g.gist.isError = g.isError := by
  rw [isError, symbol_gist, isError]

@[simp] theorem isLeaf_gist (g : Green) : g.gist.isLeaf = g.isLeaf := by
  rw [isLeaf, children_gist, isLeaf]
  cases g.children <;> rfl

theorem parseState_gist (inner : g.production.isSome = true) : g.gist.parseState = g.parseState := by
  obtain ⟨d, cs⟩ := g
  rw [gist]
  exact if_pos inner

theorem lookahead_gist (token : g.production = none) : g.gist.lookahead = g.lookahead := by
  obtain ⟨d, cs⟩ := g
  have token : d.production = none := token
  rw [gist]
  show (if d.production.isSome then 0 else d.lookahead) = d.lookahead
  rw [token]
  rfl

/-- A tree has the gist that it is built from. -/
theorem gist_eq (g : Green) : g.gist = mk
    { symbol := g.symbol
      length := g.length
      extent := g.extent
      lookahead := if g.production.isSome then 0 else g.lookahead
      parseState := if g.production.isSome then g.parseState else 0
      lexMode := 0
      production := g.production
      dynamicPrecedence := g.dynamicPrecedence
      flags := g.flags
      mark := none } (g.children.map gist) := by
  obtain ⟨d, cs⟩ := g
  rw [gist, gists_eq]
  rfl

mutual

/-- There is nothing to leave out of a gist. -/
theorem gist_gist : ∀ g : Green, g.gist.gist = g.gist
  | mk d cs => by
    rw [gist, gist, gists_gists cs]
    cases d.production <;> rfl

theorem gists_gists : ∀ gs : List Green, gists (gists gs) = gists gs
  | [] => rfl
  | g :: gs => by rw [gists, gists, gist_gist g, gists_gists gs]

end

/-! ## Trees with one gist -/

section Congruent

variable (same : g.gist = h.gist)

include same

theorem symbol_congr : g.symbol = h.symbol := by
  rw [← symbol_gist g, same, symbol_gist]

theorem length_congr : g.length = h.length := by
  rw [← length_gist g, same, length_gist]

theorem production_congr : g.production = h.production := by
  rw [← production_gist g, same, production_gist]

theorem flags_congr : g.flags = h.flags := by
  rw [← flags_gist g, same, flags_gist]

theorem isExtra_congr : g.isExtra = h.isExtra := by
  rw [isExtra, flags_congr same, isExtra]

theorem hasError_congr : g.hasError = h.hasError := by
  rw [hasError, flags_congr same, hasError]

theorem isFragile_congr : g.isFragile = h.isFragile := by
  rw [isFragile, flags_congr same, isFragile]

theorem children_congr : g.children.map gist = h.children.map gist := by
  rw [← children_gist, same, children_gist]

end Congruent

mutual

theorem sameShape_of_gist : ∀ (g h : Green), g.gist = h.gist → g.sameShape h = true
  | mk d cs, h, same => by
    rw [sameShape, Bool.and_eq_true]
    refine ⟨?_, sameShapes_of_gists cs h.children (children_congr same)⟩
    rw [looksLike, symbol_congr same, length_congr same, flags_congr same]
    simp only [beq_self_eq_true, Bool.and_self]

theorem sameShapes_of_gists : ∀ (gs hs : List Green), gs.map gist = hs.map gist →
    sameShapes gs hs = true
  | [], [], _ => by rw [sameShapes]
  | [], h :: hs, same => by cases same
  | g :: gs, [], same => by cases same
  | g :: gs, h :: hs, same => by
    obtain ⟨head, tail⟩ := List.cons.inj same
    rw [sameShapes, Bool.and_eq_true]
    exact ⟨sameShape_of_gist g h head, sameShapes_of_gists gs hs tail⟩

end

/-! ## Sums -/

@[simp] theorem spread_gists (gs : List Green) : spread (gs.map gist) = spread gs := by
  induction gs with
  | nil => rfl
  | cons g gs ih => rw [List.map_cons, spread_cons, spread_cons, ih, length_gist]

@[simp] theorem stretch_gists (gs : List Green) : stretch (gs.map gist) = stretch gs := by
  induction gs with
  | nil => rfl
  | cons g gs ih => rw [List.map_cons, stretch_cons, stretch_cons, ih, extent_gist]

@[simp] theorem noted_gists (gs : List Green) : noted (gs.map gist) = noted gs := by
  induction gs with
  | nil => rfl
  | cons g gs ih => rw [List.map_cons, noted_cons, noted_cons, ih, dynamicPrecedence_gist]

@[simp] theorem inheritedFlags_gists (gs : List Green) :
    inheritedFlags (gs.map gist) = inheritedFlags gs := by
  rw [inheritedFlags, inheritedFlags, List.foldl_map]
  simp only [flags_gist]

/-! ## Builders -/

theorem gist_leaf (spec : LeafSpec) : (leaf spec).gist =
    (leaf { spec with parseState := 0, lexMode := 0 }).gist := by
  rw [leaf, leaf, gist, gist]
  rfl

/-- What a node takes over from its children are sums and flags. -/
theorem gist_node (spec : NodeSpec) (cs : List Green) : (node spec cs).value.gist = mk
    { symbol := spec.symbol
      length := spread cs
      extent := stretch cs
      lookahead := if spec.production.isSome then 0 else spec.lookahead
      parseState := if spec.production.isSome then spec.parseState else 0
      lexMode := 0
      production := spec.production
      dynamicPrecedence := spec.dynamicPrecedence + noted cs
      flags := { spec.flags.union (inheritedFlags cs) with
        hasError := (spec.flags.union (inheritedFlags cs)).hasError || spec.symbol == Symbol.error }
      mark := none } (cs.map gist) := by
  rw [gist_eq, length_node, extent_node, dynamicPrecedence_node, children_node, production_node]
  rfl

theorem gist_node_congr {spec : NodeSpec} {cs ds : List Green} (same : cs.map gist = ds.map gist) :
    (node spec cs).value.gist = (node spec ds).value.gist := by
  rw [gist_node, gist_node, ← spread_gists cs, ← stretch_gists cs, ← noted_gists cs,
    ← inheritedFlags_gists cs, same, spread_gists, stretch_gists, noted_gists, inheritedFlags_gists]

/-- How far a reduction looked ahead is not in the gist of its node. -/
theorem gist_node_lookahead {spec : NodeSpec} (inner : spec.production.isSome = true) (n : Nat)
    (cs : List Green) :
    (node { spec with lookahead := n } cs).value.gist = (node spec cs).value.gist := by
  rw [gist_node, gist_node]
  simp only [inner, if_true]

theorem gist_withChildren (g : Green) (cs : List Green) (f : NodeFlags) :
    (g.withChildren cs f).value.gist = mk
      { g.gist.data with
        length := spread cs
        extent := stretch cs
        flags := (f.union g.flags).union (inheritedFlags cs) } (cs.map gist) := by
  rw [gist_eq, length_withChildren, extent_withChildren, children_withChildren, gist_eq g]
  rfl

theorem gist_withChildren_congr {cs ds : List Green} {f : NodeFlags} (own : g.gist = h.gist)
    (same : cs.map gist = ds.map gist) :
    (g.withChildren cs f).value.gist = (h.withChildren ds f).value.gist := by
  rw [gist_withChildren, gist_withChildren, own, flags_congr own, ← spread_gists cs,
    ← stretch_gists cs, ← inheritedFlags_gists cs, same, spread_gists, stretch_gists,
    inheritedFlags_gists]

theorem gist_withFlags (g : Green) (f : NodeFlags) : (g.withFlags f).gist =
    mk { g.gist.data with flags := g.flags.union f } g.gist.children := by
  rw [withFlags]
  split
  · next has =>
    rw [NodeFlags.union_eq_of_contains has, gist_eq]
    rfl
  · rw [gist_eq g, gist_eq]
    rfl

end Green

namespace Repair

open Green

theorem flatten_gists (gs : List Green) : (flatten gs).map gist = flatten (gs.map gist) := by
  induction gs with
  | nil => rfl
  | cons g gs ih =>
    rw [List.map_cons, flatten, flatten, isError_gist, isLeaf_gist, children_gist, ← ih]
    split
    · rw [List.map_append]
    · rw [List.map_cons]

theorem gist_errorNode_congr {gs hs : List Green} (same : gs.map gist = hs.map gist) :
    (errorNode gs).value.gist = (errorNode hs).value.gist := by
  refine gist_node_congr ?_
  rw [flatten_gists, same, flatten_gists]

end Repair

/-! ## Stacks -/

/-- An entry without its place, and with the gist of its node. -/
def StackEntry.gist (e : StackEntry) : StackEntry :=
  { e with node := e.node.gist, stop := Position.start }

namespace Stack

open Green

/-- A stack without its places, and with the gists of its nodes. -/
def gist (s : Stack) : Stack := { s with entries := s.entries.map StackEntry.gist }

variable {s t : Stack}

@[simp] theorem gist_gist_entry (e : StackEntry) : e.gist.node = e.node.gist := rfl

@[simp] theorem stateOver_gists (es : List StackEntry) :
    stateOver (es.map StackEntry.gist) = stateOver es := by
  cases es <;> rfl

@[simp] theorem state_gist (s : Stack) : s.gist.state = s.state := by
  rw [state_eq, state_eq]
  exact stateOver_gists _

@[simp] theorem depth_gist (s : Stack) : s.gist.depth = s.depth := List.length_map _

@[simp] theorem forked_gist (s : Stack) : s.gist.forked = s.forked := rfl

@[simp] theorem beats_gist (s t : Stack) : s.gist.beats t.gist = s.beats t := rfl

@[simp] theorem outline_gist (s : Stack) : s.gist.outline = s.outline := by
  rw [outline, state_gist, depth_gist, outline]

theorem sameEntries_gists (es fs : List StackEntry) :
    sameEntries (es.map StackEntry.gist) (fs.map StackEntry.gist) = sameEntries es fs := by
  induction es, fs using sameEntries.induct with
  | case1 => rfl
  | case2 a as b bs ih =>
    rw [List.map_cons, List.map_cons, sameEntries, sameEntries, ih]
    rfl
  | case3 as bs notNil notCons =>
    rcases as with _ | ⟨a, as⟩ <;> rcases bs with _ | ⟨b, bs⟩
    · exact absurd rfl (notNil rfl)
    · rfl
    · rfl
    · exact absurd rfl (notCons a as b bs rfl)

@[simp] theorem sameStates_gist (s t : Stack) : s.gist.sameStates t.gist = s.sameStates t :=
  sameEntries_gists _ _

theorem nodesOf_gists (es : List StackEntry) :
    nodesOf (es.map StackEntry.gist) = (nodesOf es).map Green.gist := by
  rw [nodesOf, nodesOf, List.map_map, List.map_reverse, List.map_map]
  rfl

theorem gist_push (s : Stack) (e : StackEntry) : (s.push e).gist = s.gist.push e.gist := rfl

/-- Trees of one gist may be pushed on stacks of one gist. -/
theorem gist_push_congr {s t : Stack} {g h : Green} (same : s.gist = t.gist)
    (node : g.gist = h.gist) (state : StateId) (stop stop' : Position) (extra : Bool) :
    (s.push ⟨state, g, stop, extra⟩).gist = (t.push ⟨state, h, stop', extra⟩).gist := by
  rw [gist_push, gist_push, same, StackEntry.gist, StackEntry.gist, node]

theorem gist_charge (s : Stack) (n : Nat) : (s.charge n).gist = s.gist.charge n := rfl

section Congruent

variable (same : s.gist = t.gist)

include same

theorem state_congr : s.state = t.state := by
  rw [← state_gist s, same, state_gist]

theorem forked_congr : s.forked = t.forked := by
  rw [← forked_gist s, same, forked_gist]

theorem entries_congr : s.entries.map StackEntry.gist = t.entries.map StackEntry.gist :=
  congrArg entries same

end Congruent

/-! ## Reductions -/

theorem takeNodes_gists (nodes : List Green) (count : Nat) (es : List StackEntry) :
    takeNodes (nodes.map Green.gist) count (es.map StackEntry.gist) =
      (takeNodes nodes count es).map fun (children, below) =>
        (children.map Green.gist, below.map StackEntry.gist) := by
  induction es generalizing nodes count with
  | nil => cases count <;> rfl
  | cons e es ih =>
    cases count with
    | zero => rfl
    | succ count =>
      rw [List.map_cons, takeNodes, takeNodes]
      show (if e.extra then _ else _) = _
      split
      · exact ih (e.node :: nodes) (count + 1)
      · exact ih (e.node :: nodes) count

theorem takeWhile_extra_gists (es : List StackEntry) :
    (es.map StackEntry.gist).takeWhile (·.extra) = (es.takeWhile (·.extra)).map StackEntry.gist :=
  List.takeWhile_map ..

theorem dropWhile_extra_gists (es : List StackEntry) :
    (es.map StackEntry.gist).dropWhile (·.extra) = (es.dropWhile (·.extra)).map StackEntry.gist :=
  List.dropWhile_map ..

/-- The gist of a stack after a reduction. -/
def folded? (l : Language) (s : Stack) (id : ProductionId) (fragile : Bool) : Option Stack :=
  (l.production? id).bind fun p =>
    (takeNodes [] p.length (s.entries.dropWhile (·.extra))).bind fun (children, below) =>
      (l.goto? (stateOver below) p.lhs).map fun target =>
        { s with
          entries := (s.entries.takeWhile (·.extra)).map (fun e => { e with state := target }) ++
            ⟨target, (node ⟨p.lhs, some id, stateOver below, 0, p.dynamicPrecedence,
              NodeFlags.fragileIf fragile⟩ children).value.gist, Position.start, false⟩ :: below
          dynamicPrecedence := s.dynamicPrecedence + p.dynamicPrecedence }

/-- A reduction is a matter of the gist of the stack, whatever token is ahead. -/
theorem folded?_gist (l : Language) (s : Stack) (id : ProductionId) (la : Lookahead)
    (fragile : Bool) :
    s.gist.folded? l id fragile = (s.reduce? l id la fragile).map (·.value.gist) := by
  have taken := fun n => takeNodes_gists [] n (s.entries.dropWhile (·.extra))
  rw [List.map_nil] at taken
  have entries : s.gist.entries = s.entries.map StackEntry.gist := rfl
  rw [folded?, reduce?, entries, takeWhile_extra_gists, dropWhile_extra_gists]
  cases l.production? id with
  | none => rfl
  | some p =>
    rw [Option.bind_some, taken p.length]
    cases found : takeNodes [] p.length (s.entries.dropWhile (·.extra)) with
    | none => simp [found]
    | some result =>
      obtain ⟨children, below⟩ := result
      have state : Stack.state { s with entries := below } = stateOver below := state_eq _
      simp only [Option.map_some, Option.bind_some, stateOver_gists, Option.bind_eq_bind, found,
        state]
      cases l.goto? (stateOver below) p.lhs with
      | none => rfl
      | some target =>
        refine congrArg some (Stack.mk.injEq .. ▸ ⟨?_, rfl, rfl, rfl, rfl⟩)
        have node : ∀ n, (node ⟨p.lhs, some id, stateOver below, 0, p.dynamicPrecedence,
            NodeFlags.fragileIf fragile⟩ (children.map Green.gist)).value.gist =
            (node ⟨p.lhs, some id, stateOver below, n, p.dynamicPrecedence,
              NodeFlags.fragileIf fragile⟩ children).value.gist := by
          intro n
          rw [← gist_node_lookahead rfl n]
          refine gist_node_congr ?_
          rw [List.map_map]
          exact List.map_congr_left fun c _ => gist_gist c
        rw [node (nodeLookahead la
          (position { s with entries := s.entries.dropWhile (·.extra) }).offset children).value,
          List.map_map]
        show _ = List.map StackEntry.gist (_ ++ _ :: _)
        rw [List.map_append, List.map_map]
        rfl

/-- A gist leaves out no more of itself. -/
theorem gist_gist (s : Stack) : s.gist.gist = s.gist := by
  refine Stack.mk.injEq .. ▸ ⟨?_, rfl, rfl, rfl, rfl⟩
  show (s.entries.map StackEntry.gist).map StackEntry.gist = s.entries.map StackEntry.gist
  rw [List.map_map]
  refine List.map_congr_left fun e _ => ?_
  show ({ e with node := e.node.gist.gist, stop := Position.start } : StackEntry) = _
  rw [Green.gist_gist]
  rfl

end Stack

/-! ## Choices between stacks -/

namespace Frontier

open Stack

/-- A contender with the gist of its stack. -/
def Contender.gist (c : Contender) : Contender := { c with stack := c.stack.gist }

theorem contenders_gists (live : List Stack) :
    contenders (live.map Stack.gist) = (contenders live).map Contender.gist := by
  rw [contenders, contenders, List.zipIdx_map, List.map_map, List.map_map]
  refine List.map_congr_left fun m _ => ?_
  show (⟨m.2, m.1.gist.outline, m.1.gist⟩ : Contender) = ⟨m.2, m.1.outline, m.1.gist⟩
  rw [outline_gist]

theorem mergeInto_gists (c : Contender) (merged : List Contender) :
    mergeInto c.gist (merged.map Contender.gist) = (mergeInto c merged).map Contender.gist := by
  induction merged with
  | nil => rfl
  | cons d ds ih =>
    rw [List.map_cons, mergeInto, mergeInto]
    have same : d.gist.stack.sameStates c.gist.stack = d.stack.sameStates c.stack :=
      sameStates_gist d.stack c.stack
    have beats : c.gist.stack.beats d.gist.stack = c.stack.beats d.stack := rfl
    rw [same, beats]
    split
    · split
      · rfl
      · rfl
    · rw [ih, List.map_cons]

theorem mergeGroup_gists (group : List Contender) :
    mergeGroup (group.map Contender.gist) = (mergeGroup group).map Contender.gist := by
  have walk : ∀ group merged : List Contender,
      (group.map Contender.gist).foldl (fun merged c => mergeInto c merged)
          (merged.map Contender.gist) =
        (group.foldl (fun merged c => mergeInto c merged) merged).map Contender.gist := by
    intro group
    induction group with
    | nil => exact fun _ => rfl
    | cons c group ih =>
      intro merged
      rw [List.map_cons, List.foldl_cons, List.foldl_cons, mergeInto_gists, ih]
  exact walk group []

/-- Grouping neighbours goes by what a map keeps. -/
theorem splitBy_map {α β : Type} (f : α → β) (r : α → α → Bool) (q : β → β → Bool)
    (kept : ∀ a b, q (f a) (f b) = r a b) (l : List α) :
    (l.map f).splitBy q = (l.splitBy r).map (List.map f) := by
  have walk : ∀ (l : List α) (a : α) (group : List α) (groups : List (List α)),
      List.splitBy.loop q (l.map f) (f a) (group.map f) (groups.map (List.map f)) =
        (List.splitBy.loop r l a group groups).map (List.map f) := by
    intro l
    induction l with
    | nil =>
      intro a group groups
      simp [List.splitBy.loop]
    | cons b l ih =>
      intro a group groups
      rw [List.map_cons, List.splitBy.loop, List.splitBy.loop, kept]
      split
      · exact ih b (a :: group) groups
      · have := ih b [] ((a :: group).reverse :: groups)
        rw [← this]
        simp
  cases l with
  | nil => rfl
  | cons a l => exact walk l a [] []

theorem merge_gists (live : List Stack) :
    merge (live.map Stack.gist) = (merge live).map Stack.gist := by
  have sorted : ((contenders live).map Contender.gist).mergeSort outlineLe =
      ((contenders live).mergeSort outlineLe).map Contender.gist :=
    (List.map_mergeSort (r := outlineLe) (f := Contender.gist) fun _ _ _ _ => rfl).symm
  have grouped : (merged live).map Contender.gist = merged (live.map Stack.gist) := by
    rw [merged, merged, contenders_gists, sorted,
      splitBy_map Contender.gist (fun c d => c.outline == d.outline)
        (fun c d => c.outline == d.outline) (fun _ _ => rfl),
      List.flatMap_map, List.map_flatMap]
    simp only [mergeGroup_gists]
  rw [merge_eq, merge_eq, ← grouped, List.map_map]
  have placed : ((merged live).map Contender.gist).mergeSort (fun c d => c.place ≤ d.place) =
      ((merged live).mergeSort fun c d => c.place ≤ d.place).map Contender.gist :=
    (List.map_mergeSort (r := fun c d : Contender => decide (c.place ≤ d.place))
      (f := Contender.gist) fun _ _ _ _ => rfl).symm
  rw [placed, List.map_map]
  rfl

theorem bestFrom_gists (best : Stack) (live : List Stack) :
    bestFrom best.gist (live.map Stack.gist) = (bestFrom best live).gist := by
  induction live generalizing best with
  | nil => rfl
  | cons s live ih =>
    rw [List.map_cons, bestFrom, bestFrom, beats_gist]
    split
    · exact ih s
    · exact ih best

theorem best?_gists (live : List Stack) :
    best? (live.map Stack.gist) = (best? live).map Stack.gist := by
  cases live with
  | nil => rfl
  | cons s live => exact congrArg some (bestFrom_gists s live)

theorem collapse_gists (live : List Stack) :
    collapse (live.map Stack.gist) = (collapse live).map Stack.gist := by
  rw [collapse, best?_gists, collapse]
  cases best? live <;> rfl

theorem isCrowded_gists (live : List Stack) (allowed : Nat) :
    isCrowded (live.map Stack.gist) allowed = isCrowded live allowed := by
  rw [isCrowded, List.length_map, isCrowded]

theorem prune_gists (live : List Stack) (allowed : Nat) :
    prune (live.map Stack.gist) allowed = (prune live allowed).map Stack.gist := by
  rw [prune, isCrowded_gists, prune]
  split
  · rw [← List.map_mergeSort (r := fun s t : Stack => !t.beats s) fun _ _ _ _ => rfl,
      List.map_take]
  · rfl

end Frontier

end Glr
