import Glr.Proofs.Coverage
import Glr.Proofs.Laid

/-!
# What a parse lays out

The trees on a stack are laid out from the start of the text to where the stack is, if tokens and
what is taken over of the old tree are laid out where they stand (`Lays`, `built_laid`).  A
reduction and a repair put nodes over what is there, and an error leaf holds what is left of the
text.  So a root that is as long as the text is laid out over it, whichever way the parse ends
(`Run.laid_of_ending`).

This asks nothing of the language.  With tables that accept before the end of the text, or tokens
that stand for a nonterminal, text can be lost, but then the root is not as long as the text.
-/

namespace Glr

/-- A text is cut at places that are known, and leaves are what they should be at their places:
those of tokens, of the old tree, and of what is left of the text; and so are empty ones. -/
structure Lays (task : ParseTask) (old : Option Green) (cut : Nat → Prop)
    (good : Nat → Green → Prop) : Prop where
  start : cut 0
  inside : ∀ {o : Nat}, cut o → o ≤ task.text.size
  empty : Green.GoodOfEmpty cut good
  token : ∀ {la : Lookahead}, Ahead task old la → cut la.start.offset →
    ∀ (r : Run) (state : StateId) (flags : NodeFlags),
      good la.start.offset (r.makeLeaf la state flags).1 ∧ cut la.stop.offset
  rest : ∀ {o : Nat}, cut o →
    (Repair.errorLeaf (task.text.extract o task.text.size)).Laid cut good o
  old : ∀ root ∈ old, root.Laid cut good 0

/-! ## Stacks -/

section Stacks

variable {cut : Nat → Prop} {good : Nat → Green → Prop} {e : StackEntry}
  {es taken below : List StackEntry}

theorem laidIn_push (lower : Green.LaidIn cut good 0 (nodesOf es))
    (top : e.node.Laid cut good (Green.spread (nodesOf es))) :
    Green.LaidIn cut good 0 (nodesOf (e :: es)) := by
  rw [nodesOf_cons, Green.laidIn_append, Green.laidIn_cons, Nat.zero_add, Green.laidIn_nil]
  exact ⟨lower, top, top.stop⟩

theorem laidIn_entries : Green.LaidIn cut good 0 (nodesOf (taken ++ below)) ↔
    Green.LaidIn cut good 0 (nodesOf below) ∧
      Green.LaidIn cut good (Green.spread (nodesOf below)) (nodesOf taken) := by
  rw [nodesOf_append, Green.laidIn_append, Nat.zero_add]

variable (empty : Green.GoodOfEmpty cut good)

include empty

theorem laidIn_reduces {l : Language} {id : ProductionId} {es' : List StackEntry}
    (reduces : Stack.Reduces l id es es') (h : Green.LaidIn cut good 0 (nodesOf es)) :
    Green.LaidIn cut good 0 (nodesOf es') := by
  cases reduces with
  | @intro trailing taken below p target lookahead fragile =>
    obtain ⟨base, extras⟩ := laidIn_entries.mp h
    obtain ⟨lower, children⟩ := laidIn_entries.mp base
    refine laidIn_entries.mpr ⟨laidIn_push lower (Green.laid_of_children empty
      (Green.length_node _ _) (Green.extent_node _ _) children), ?_⟩
    rw [nodesOf_restate, spread_push, Green.length_node, ← Green.spread_append, ← nodesOf_append]
    exact extras

theorem laidIn_wrap {l : Language} {s : Stack} {t : Symbol} {allowed : Nat}
    {c : Checked (Stack × Nat)} (wrapped : Repair.wrap l s t allowed = some c)
    (h : Green.LaidIn cut good 0 (nodesOf s.entries)) :
    Green.LaidIn cut good 0 (nodesOf c.value.1.entries) ∧
      Green.spread (nodesOf c.value.1.entries) = Green.spread (nodesOf s.entries) := by
  obtain ⟨taken, below, entries, -, result⟩ := Repair.wrap_spec wrapped
  rw [entries] at h ⊢
  obtain ⟨lower, upper⟩ := laidIn_entries.mp h
  rw [result]
  refine ⟨laidIn_push lower (Repair.laid_errorNode empty upper), ?_⟩
  rw [spread_push, nodesOf_append, Green.spread_append, Repair.spread_errorNode upper]

theorem laidIn_skip {s : Stack} {leaf : Green} (h : Green.LaidIn cut good 0 (nodesOf s.entries))
    (laid : leaf.Laid cut good (Green.spread (nodesOf s.entries))) (stop : Position) (cost : Nat) :
    Green.LaidIn cut good 0 (nodesOf (Repair.skip s leaf stop cost).value.entries) ∧
      Green.spread (nodesOf (Repair.skip s leaf stop cost).value.entries) =
        Green.spread (nodesOf s.entries) + leaf.length := by
  obtain ⟨taken, below, children, entries, takes, result⟩ := Repair.skip_spec s leaf stop cost
  rw [entries] at h laid ⊢
  rw [nodesOf_append, Green.spread_append] at laid
  obtain ⟨lower, upper⟩ := laidIn_entries.mp h
  rw [result]
  -- The error that is taken in gives way to its children.
  have inside : Green.LaidIn cut good (Green.spread (nodesOf below)) children ∧
      Green.spread children = Green.spread (nodesOf taken) := by
    cases takes with
    | nothing => exact ⟨upper, rfl⟩
    | @error extras e plain extra wrong inner =>
      rw [nodesOf_append, nodesOf_cons, nodesOf_nil, List.nil_append,
        List.singleton_append] at upper ⊢
      obtain ⟨error, above⟩ := Green.laidIn_cons.mp upper
      have length := error.length_eq (Green.children_ne_nil inner)
      rw [Green.laidIn_append, Green.spread_append, Green.spread_cons, ← length]
      exact ⟨⟨error.below, above⟩, rfl⟩
  have all : Green.LaidIn cut good (Green.spread (nodesOf below)) (children ++ [leaf]) := by
    rw [Green.laidIn_append, Green.laidIn_cons, inside.2, Green.laidIn_nil]
    exact ⟨inside.1, laid, laid.stop⟩
  refine ⟨laidIn_push lower (Repair.laid_errorNode empty all), ?_⟩
  rw [spread_push, nodesOf_append, Green.spread_append, Repair.spread_errorNode all,
    Green.spread_append, inside.2, Green.spread_cons, Green.spread_nil]
  omega

end Stacks

section Built

variable {task : ParseTask} {old : Option Green} {cut : Nat → Prop} {good : Nat → Green → Prop}
  (lays : Lays task old cut good)

include lays

/-- The leaf of the token ahead stands where the token is. -/
theorem Lays.leaf {la : Lookahead} (ahead : Ahead task old la) (here : cut la.start.offset)
    (r : Run) (state : StateId) (flags : NodeFlags) :
    (r.makeLeaf la state flags).1.Laid cut good la.start.offset := by
  obtain ⟨good, stop⟩ := lays.token ahead here r state flags
  rw [Green.laid_of_leaf (ahead.leaf_spec r state flags).1, ahead.length_leaf (lays.inside here)]
  exact ⟨here, good, stop⟩

/-- The trees on a stack are laid out up to where the stack is. -/
theorem built_laid {offset : Nat} {entries : List StackEntry}
    (built : Built task old offset entries) :
    Green.LaidIn cut good 0 (nodesOf entries) ∧ Green.spread (nodesOf entries) = offset := by
  have here {offset : Nat} {es : List StackEntry} (h : Green.LaidIn cut good 0 (nodesOf es) ∧
      Green.spread (nodesOf es) = offset) : cut offset := by
    have stop := h.1.stop
    rwa [h.2, Nat.zero_add] at stop
  have push {e : StackEntry} {es : List StackEntry} {offset stop : Nat}
      (h : Green.LaidIn cut good 0 (nodesOf es) ∧ Green.spread (nodesOf es) = offset)
      (top : e.node.Laid cut good offset) (length : offset + e.node.length = stop) :
      Green.LaidIn cut good 0 (nodesOf (e :: es)) ∧ Green.spread (nodesOf (e :: es)) = stop := by
    refine ⟨laidIn_push h.1 (h.2 ▸ top), ?_⟩
    rw [spread_push, h.2, length]
  induction built with
  | start => exact ⟨Green.laidIn_nil.mpr lays.start, rfl⟩
  | reduce ahead built action reduced ih =>
    have reduces := Stack.reduces_of_reduce? reduced
    exact ⟨laidIn_reduces lays.empty reduces ih.1, (spread_reduces reduces).trans ih.2⟩
  | extra r state fragile ahead built free ih =>
    exact push ih (lays.leaf ahead (here ih) r state _)
      (ahead.length_leaf (lays.inside (here ih)) r state _)
  | shift r state fragile ahead built action ih =>
    exact push ih (lays.leaf ahead (here ih) r state _)
      (ahead.length_leaf (lays.inside (here ih)) r state _)
  | subtree ahead built fitting ih =>
    obtain ⟨root, hroot, held⟩ := fitting.held
    have laid := (lays.old root hroot).of_holds held
    rw [Nat.zero_add] at laid
    exact push ih laid rfl
  | @missing s la t target ahead built action ih =>
    refine push ih (Green.laid_of_children lays.empty rfl rfl (Green.laidIn_nil.mpr (here ih))) ?_
    exact Nat.add_zero la.start.offset
  | wrap built wrapped ih =>
    obtain ⟨laid, spread⟩ := laidIn_wrap lays.empty wrapped ih.1
    exact ⟨laid, spread.trans ih.2⟩
  | skip r state cost ahead built notEnd ih =>
    have leaf := lays.leaf ahead (here ih) r state NodeFlags.none
    obtain ⟨laid, spread⟩ := laidIn_skip lays.empty ih.1 (ih.2.symm ▸ leaf) _ cost
    rw [spread, ih.2, ahead.length_leaf (lays.inside (here ih))]
    exact ⟨laid, rfl⟩
  | rest cost ahead built all ih =>
    rw [Nat.min_eq_left (lays.inside (here ih))] at all
    have leaf := all ▸ lays.rest (here ih)
    obtain ⟨laid, spread⟩ := laidIn_skip lays.empty ih.1 (ih.2.symm ▸ leaf) _ cost
    rw [spread, ih.2]
    exact ⟨laid, rfl⟩

namespace Run

variable {r : Run} {root : Green}

/-- What remains at the end is laid out from where the stack starts. -/
theorem laidIn_remains {start : Nat} (here : cut r.position.offset)
    (stack : Green.LaidIn cut good start (standing r.live))
    (place : start + Green.spread (standing r.live) = r.position.offset) :
    Green.LaidIn cut good start (r.remains task) := by
  rw [remains_eq, Nat.min_eq_left (lays.inside here)]
  split
  · have rest := lays.rest here
    rw [Green.laidIn_append, Green.laidIn_cons, Green.laidIn_nil, place]
    exact ⟨stack, rest, rest.stop⟩
  · exact stack

/-- What is accepted is laid out, unless text is lost with a token that has no children to give. -/
theorem laid_accept {s : Stack} {offset : Nat} (built : Built task old offset s.entries)
    (whole : (accept task.language s).value.length = task.text.size) :
    (accept task.language s).value.Laid cut good 0 := by
  obtain ⟨laid, spread⟩ := built_laid lays built
  have inside : offset ≤ task.text.size := by
    have stop := lays.inside laid.stop
    omega
  rcases accept_cases task.language s with
    error | ⟨before, main, after, entries, -, -, -, shape⟩
  · rw [error]
    exact Repair.laid_errorNode lays.empty laid
  · have nodes : nodesOf s.entries =
        before.map (·.node) ++ main.node :: after.map (·.node) := by
      rw [nodesOf, ← List.map_reverse, entries, List.map_append, List.map_cons]
    rw [nodes] at laid spread
    obtain ⟨front, top, behind⟩ := Green.laidIn_append.mp laid |>.imp_right Green.laidIn_cons.mp
    rcases shape with ⟨none, root⟩ | root
    · rw [root]
      rwa [(List.append_eq_nil_iff.mp none).1] at top
    · rw [root] at whole ⊢
      rw [Green.length_withChildren, Green.spread_append, Green.spread_append] at whole
      rw [Green.spread_append, Green.spread_cons] at spread
      -- A token in the place of the root would have to be empty.
      have length : main.node.length = Green.spread main.node.children := by
        by_cases leaf : main.node.children = []
        · rw [leaf, Green.spread_nil] at whole ⊢
          omega
        · exact top.length_eq leaf
      refine Green.laid_of_children lays.empty (Green.length_withChildren _ _ _)
        (Green.extent_withChildren _ _ _) ?_
      rw [Green.children_withChildren, List.append_assoc, Green.laidIn_append,
        Green.laidIn_append, ← length]
      exact ⟨front, top.below, behind⟩

/-- A root that is as long as the text is laid out over it, whichever way the parse ends. -/
theorem laid_of_ending (ending : Ending task old root r) (whole : root.length = task.text.size) :
    root.Laid cut good 0 := by
  have here {offset : Nat} {entries : List StackEntry} (built : Built task old offset entries) :
      cut offset := by
    obtain ⟨laid, spread⟩ := built_laid lays built
    have stop := laid.stop
    rwa [spread, Nat.zero_add] at stop
  cases ending with
  | accepted ahead atEnd built accepts quiet => exact laid_accept lays built whole
  | @wrapped r problem built alive =>
    obtain ⟨s, best⟩ := Frontier.exists_best? alive
    have stack := built s (Frontier.mem_of_best? best)
    have nodes : standing r.live = nodesOf s.entries := by
      rw [standing, best]
      rfl
    obtain ⟨laid, spread⟩ := built_laid lays stack
    refine Repair.laid_errorNode lays.empty (laidIn_remains lays (here stack) ?_ ?_)
    · rw [nodes]
      exact laid
    · rw [nodes, spread, Nat.zero_add]
  | @stranded r entries none built =>
    have stack : standing r.countRecovered.live = [] := by
      show standing r.live = []
      rw [none]
      rfl
    have laid : ((r.abandon task).1).Laid cut good r.position.offset := by
      refine Repair.laid_errorNode lays.empty
        (laidIn_remains lays (r := r.countRecovered) (here built) ?_ ?_)
      · rw [stack]
        exact Green.laidIn_nil.mpr (here built)
      · rw [stack]
        rfl
    -- The stack was lost before anything was read, or the root would be too short.
    have first : r.position.offset = 0 := by
      have := lays.inside laid.stop
      omega
    rwa [first] at laid

end Run

end Built

/-- The root of a parse that covers its text is laid out over it. -/
theorem Parser.laid_parse {p : Parser} {text : Text} {old : Option Tree} {cut : Nat → Prop}
    {good : Nat → Green → Prop} (lays : Lays (p.task text) (p.oldRoot old) cut good)
    (interrupts : Interrupts)
    (whole : (p.parse text old interrupts).value.tree.root.length = text.size) :
    (p.parse text old interrupts).value.tree.root.Laid cut good 0 := by
  have ending := Run.ending_outcome (p.task text) interrupts (p.oldRoot old)
  rw [tree_parse] at whole ⊢
  generalize Run.outcome (p.task text) interrupts (p.oldRoot old) = outcome at ending whole ⊢
  exact Run.laid_of_ending lays ending whole

end Glr
