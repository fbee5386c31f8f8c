import Glr.Proofs.Compiled
import Glr.Proofs.Measured
import Glr.Proofs.Moves
import Glr.Proofs.Turns

/-!
# How much text a stack holds

The nodes of a stack that can be built over the text up to an offset have that many bytes together,
and all their lengths add up.  Both are shown move by move.  The second needs nothing of the old
tree but that it is measured itself, so all trees of a chain of edits and parses are; the first
needs an old tree that is as long as the text, since a token taken from a longer one could lie
behind the end.

Of the grammar only a little is needed: nothing shifts the end of the text, and no token but the
empty one at the end is the end of the text.
-/

namespace Glr

variable {g : FlatGrammar} {a : Automaton} {task : ParseTask} {old : Option Green}
  {la : Lookahead}

/-! ## The token ahead -/

namespace Ahead

/-- The leaf of the token ahead, whether it is new or taken over. -/
theorem leaf_spec (ahead : Ahead task old la) (r : Run) (state : StateId) (flags : NodeFlags) :
    (r.makeLeaf la state flags).1.children = [] ∧
      (r.makeLeaf la state flags).1.symbol = la.token.symbol ∧
      (r.makeLeaf la state flags).1.length = la.token.span.stop - la.token.span.start := by
  cases ahead with
  | @reused place leaf held isLeaf nonempty undamaged correct =>
    rw [Run.makeLeaf]
    dsimp only [Run.reusedLookahead, Checked.value_bind, Checked.value_pure]
    split
    · refine ⟨?_, Green.symbol_withFlags _ _, ?_⟩
      · rw [Green.children_withFlags]
        exact List.isEmpty_iff.mp isLeaf
      · show _ = place.offset + leaf.length - place.offset
        rw [Green.length_withFlags]
        omega
    · exact ⟨rfl, rfl, rfl⟩
  | lexed place valid mode => exact ⟨rfl, rfl, rfl⟩

/-- The stop of the token ahead is behind its leaf. -/
theorem stop_eq (ahead : Ahead task old la) (inside : la.start.offset ≤ task.text.size)
    (r : Run) (state : StateId) (flags : NodeFlags) :
    la.stop = (la.start.advance (r.makeLeaf la state flags).1).value := by
  cases ahead with
  | @reused place leaf =>
    have moved {g : Green} (length : g.length = leaf.length) (extent : g.extent = leaf.extent) :
        (place.advance leaf).value = (place.advance g).value := by
      show (⟨place.offset + leaf.length, place.point.advance leaf.extent⟩ : Position) =
        ⟨place.offset + g.length, place.point.advance g.extent⟩
      rw [length, extent]
    rw [Run.makeLeaf]
    dsimp only [Run.reusedLookahead, Checked.value_bind, Checked.value_pure]
    split
    · exact moved (leaf.length_withFlags flags) (leaf.extent_withFlags flags)
    · exact moved (Nat.add_sub_cancel_left place.offset leaf.length) rfl
  | lexed place valid mode =>
    have placed := task.language.placed_nextTokenIn task.text place.offset valid mode
    have inside : place.offset ≤ task.text.size := inside
    rw [Nat.min_eq_left inside] at placed
    generalize task.language.nextTokenIn task.text place.offset valid mode = t at placed
    show (⟨t.span.stop, place.point.advance t.extent⟩ : Position) =
      ⟨place.offset + (t.span.stop - t.span.start), place.point.advance t.extent⟩
    rw [placed.start, Nat.add_sub_cancel' placed.le_stop]

/-- The leaf of the token ahead fills the place between its start and its stop. -/
theorem length_leaf (ahead : Ahead task old la) (inside : la.start.offset ≤ task.text.size)
    (r : Run) (state : StateId) (flags : NodeFlags) :
    la.start.offset + (r.makeLeaf la state flags).1.length = la.stop.offset :=
  (congrArg Position.offset (ahead.stop_eq inside r state flags)).symm

/-- An unknown token is an error and not the end of the text. -/
theorem symbol_ne_end (ahead : Ahead task old la)
    (free : la.token.isError = true ∨ la.token.isEnd = false) :
    la.token.symbol ≠ Symbol.endOfText := by
  rcases free with wrong | notEnd
  · cases ahead with
    | reused => cases wrong
    | lexed place valid mode =>
      have placed := task.language.placed_nextTokenIn task.text place.offset valid mode
      show (task.language.nextTokenIn task.text place.offset valid mode).symbol ≠ _
      rw [placed.wrong wrong]
      decide
  · intro same
    rw [Token.isEnd, same] at notEnd
    cases notEnd

end Ahead

/-- What is known of the token ahead of a place in a text. -/
structure Lookahead.Proper (text : Text) (la : Lookahead) : Prop where
  start : la.token.span.start = la.start.offset
  stop : la.token.span.stop = la.stop.offset
  le_stop : la.start.offset ≤ la.stop.offset
  stop_le : la.stop.offset ≤ text.size
  atEnd : la.token.isEnd = true → la.start.offset = text.size

/-- An old tree of a text of the same length. -/
def Green.Fits (text : Text) (old : Option Green) : Prop :=
  ∀ root ∈ old, root.Measured ∧ root.length = text.size

section Founded

variable (founded : task.language.Founded g a)

include founded

theorem Ahead.proper (fits : Green.Fits task.text old) (ahead : Ahead task old la)
    (inside : la.start.offset ≤ task.text.size) : la.Proper task.text := by
  cases ahead with
  | @reused place leaf held isLeaf nonempty undamaged correct =>
    obtain ⟨root, hroot, held⟩ := held
    obtain ⟨measured, length⟩ := fits root hroot
    obtain ⟨leafMeasured, within⟩ := measured.of_holds held
    refine ⟨rfl, rfl, Nat.le_add_right _ _, length ▸ within, fun atEnd => ?_⟩
    exact absurd (beq_iff_eq.mp atEnd) leafMeasured.symbol_ne
  | lexed place valid mode =>
    have placed := task.language.placed_nextTokenIn task.text place.offset valid mode
    have inside : place.offset ≤ task.text.size := inside
    rw [Nat.min_eq_left inside] at placed
    refine ⟨placed.start, rfl, placed.le_stop, placed.stop_le, fun atEnd => ?_⟩
    exact (founded.atEnd_of_placed placed (beq_iff_eq.mp atEnd)).2

/-! ## Stacks -/

/-- What is known of an entry: the lengths in its node add up, and a token is a terminal. -/
structure StackEntry.Whole (g : FlatGrammar) (e : StackEntry) : Prop where
  measured : e.node.Measured
  token : e.extra = false → e.node.children = [] →
    e.node.length = 0 ∨ g.isTerminal e.node.symbol = true

omit founded in
theorem StackEntry.Whole.of_extra {e : StackEntry} (measured : e.node.Measured)
    (extra : e.extra = true) : e.Whole g :=
  ⟨measured, fun plain => by rw [extra] at plain; cases plain⟩

theorem lhs_ne_end {id : ProductionId} {p : Production}
    (known : task.language.production? id = some p) : p.lhs ≠ Symbol.endOfText := by
  have nonterminal := founded.lhs_nonterminal known
  intro same
  rw [same, founded.wf.terminal_end] at nonterminal
  cases nonterminal

omit founded in
theorem measured_of_takesIn {taken : List StackEntry} {children : List Green}
    (takes : Repair.TakesIn taken children) (whole : ∀ e ∈ taken, e.Whole g) :
    (∀ c ∈ children, c.Measured) ∧ Green.spread children = Green.spread (nodesOf taken) := by
  refine ⟨takes.forall_mem (fun h => h.of_mem) fun e he => (whole e he).measured, ?_⟩
  cases takes with
  | nothing => rfl
  | @error extras e plain extra wrong inner =>
    have := (whole e (by simp)).measured.length_eq (Green.children_ne_nil inner)
    simp only [nodesOf_append, nodesOf_cons, nodesOf_nil, List.nil_append, Green.spread_append,
      Green.spread_cons, Green.spread_nil]
    omega

omit founded in
theorem whole_skip {s : Stack} {leaf : Green} {stop : Position} {cost : Nat}
    (whole : ∀ e ∈ s.entries, e.Whole g) (measured : leaf.Measured) :
    (∀ e ∈ (Repair.skip s leaf stop cost).value.entries, e.Whole g) ∧
      Green.spread (nodesOf (Repair.skip s leaf stop cost).value.entries) =
        Green.spread (nodesOf s.entries) + leaf.length := by
  obtain ⟨taken, below, children, entries, takes, result⟩ := Repair.skip_spec s leaf stop cost
  rw [entries] at whole ⊢
  rw [result]
  obtain ⟨inside, spread⟩ := measured_of_takesIn takes fun e he =>
    whole e (List.mem_append_left _ he)
  obtain ⟨error, length⟩ := Repair.measured_errorNode
    (List.forall_mem_append.mpr ⟨inside, List.forall_mem_singleton.mpr measured⟩)
  refine ⟨List.forall_mem_cons.mpr ⟨.of_extra error rfl, fun e he => ?_⟩, ?_⟩
  · exact whole e (List.mem_append_right _ he)
  · simp only [nodesOf_cons, nodesOf_append, Green.spread_append, Green.spread_cons,
      Green.spread_nil, length]
    omega

theorem built_whole (measured : ∀ root ∈ old, root.Measured) {offset : Nat}
    {entries : List StackEntry} (built : Built task old offset entries) :
    ∀ e ∈ entries, e.Whole g := by
  induction built with
  | start => exact fun _ he => absurd he List.not_mem_nil
  | reduce ahead built action reduced ih =>
    refine (Stack.reduces_of_reduce? reduced).forall_mem ih
      (fun _ _ h => ⟨h.measured, h.token⟩) ?_
    intro taken below p target lookahead fragile known inside _
    refine ⟨.of_spread ?_ (by simp) (lhs_ne_end founded known), fun _ none => ?_⟩
    · exact forall_mem_nodesOf.mpr fun e he => (inside e he).measured
    · rw [Green.children_node] at none
      exact Or.inl (by rw [Green.length_node, none]; rfl)
  | @extra s la r state fragile ahead built free ih =>
    obtain ⟨leaf, symbol, -⟩ := ahead.leaf_spec r state { NodeFlags.onlyExtra with fragile }
    intro e he
    rcases List.mem_cons.mp he with rfl | he
    · exact .of_extra (.of_leaf leaf (symbol ▸ ahead.symbol_ne_end free)) rfl
    · exact ih e he
  | @shift s la target r state fragile ahead built action ih =>
    obtain ⟨leaf, symbol, -⟩ := ahead.leaf_spec r state (NodeFlags.fragileIf fragile)
    intro e he
    rcases List.mem_cons.mp he with rfl | he
    · refine ⟨.of_leaf leaf fun same => ?_, fun _ _ => Or.inr ?_⟩
      · rw [symbol] at same
        exact founded.shift_ne_end action same
      · show g.isTerminal (r.makeLeaf la state _).1.symbol = true
        rw [symbol]
        exact founded.isTerminal_of_action action
    · exact ih e he
  | subtree ahead built fitting ih =>
    intro e he
    rcases List.mem_cons.mp he with rfl | he
    · obtain ⟨root, hroot, held⟩ := fitting.held
      exact ⟨((measured root hroot).of_holds held).1,
        fun _ none => absurd none (Green.children_ne_nil fitting.inner)⟩
    · exact ih e he
  | missing ahead built action ih =>
    intro e he
    rcases List.mem_cons.mp he with rfl | he
    · refine ⟨.of_leaf rfl fun same => ?_, fun _ _ => Or.inl rfl⟩
      exact founded.shift_ne_end action same
    · exact ih e he
  | wrap built wrapped ih =>
    refine Repair.forall_mem_wrap wrapped ih fun inside => .of_extra ?_ rfl
    exact (Repair.measured_errorNode
      (forall_mem_nodesOf.mpr fun e he => (inside e he).measured)).1
  | skip r state cost ahead built notEnd ih =>
    obtain ⟨leaf, symbol, -⟩ := ahead.leaf_spec r state NodeFlags.none
    exact (whole_skip ih (.of_leaf leaf (symbol ▸ ahead.symbol_ne_end (Or.inr notEnd)))).1
  | rest cost ahead built all ih =>
    exact (whole_skip ih (all ▸ Repair.measured_errorLeaf _)).1

omit founded in
theorem spread_push (e : StackEntry) (es : List StackEntry) :
    Green.spread (nodesOf (e :: es)) = Green.spread (nodesOf es) + e.node.length := by
  rw [nodesOf_cons, Green.spread_append, Green.spread_cons, Green.spread_nil, Nat.add_zero]

omit founded in
theorem spread_reduces {l : Language} {id : ProductionId} {es es' : List StackEntry}
    (reduces : Stack.Reduces l id es es') :
    Green.spread (nodesOf es') = Green.spread (nodesOf es) := by
  cases reduces with
  | @intro trailing taken below p target lookahead fragile known extras counted top bottom
      goto =>
    simp only [nodesOf_append, nodesOf_cons, Green.spread_append, Green.spread_cons,
      Green.spread_nil, Green.length_node, nodesOf_restate]
    omega

/-- The nodes of a stack hold the text up to where the stack is. -/
theorem built_spread (fits : Green.Fits task.text old) (small : task.text.size ≤ Size.largest)
    {offset : Nat} {entries : List StackEntry} (built : Built task old offset entries) :
    offset ≤ task.text.size ∧ Green.spread (nodesOf entries) = offset := by
  have measured : ∀ root ∈ old, root.Measured := fun root hroot => (fits root hroot).1
  induction built with
  | start => exact ⟨Nat.zero_le _, rfl⟩
  | reduce ahead built action reduced ih =>
    rw [spread_reduces (Stack.reduces_of_reduce? reduced)]
    exact ih
  | @extra s la r state fragile ahead built free ih =>
    refine ⟨(ahead.proper founded fits ih.1).stop_le, ?_⟩
    rw [spread_push, ih.2]
    exact ahead.length_leaf ih.1 r state _
  | @shift s la target r state fragile ahead built action ih =>
    refine ⟨(ahead.proper founded fits ih.1).stop_le, ?_⟩
    rw [spread_push, ih.2]
    exact ahead.length_leaf ih.1 r state _
  | @subtree s la g target ahead built fitting ih =>
    obtain ⟨root, hroot, held⟩ := fitting.held
    have within := ((measured root hroot).of_holds held).2
    have length := (fits root hroot).2
    show la.start.offset + g.length ≤ _ ∧ _ = la.start.offset + g.length
    rw [spread_push, ih.2]
    dsimp only
    omega
  | missing ahead built action ih =>
    refine ⟨ih.1, ?_⟩
    show Green.spread (nodesOf (_ :: _)) = _
    rw [spread_push, ih.2]
    rfl
  | wrap built wrapped ih =>
    obtain ⟨taken, below, entries, -, result⟩ := Repair.wrap_spec wrapped
    have whole := built_whole founded measured built
    rw [entries] at ih whole
    rw [result]
    obtain ⟨-, length⟩ := Repair.measured_errorNode
      (forall_mem_nodesOf.mpr fun e he => (whole e (List.mem_append_left _ he)).measured)
    refine ⟨ih.1, ?_⟩
    have spread := ih.2
    rw [nodesOf_append, Green.spread_append] at spread
    rw [spread_push, length]
    omega
  | @skip s la r state cost ahead built notEnd ih =>
    obtain ⟨leaf, symbol, -⟩ := ahead.leaf_spec r state NodeFlags.none
    refine ⟨(ahead.proper founded fits ih.1).stop_le, ?_⟩
    rw [(whole_skip (built_whole founded measured built)
      (.of_leaf leaf (symbol ▸ ahead.symbol_ne_end (Or.inr notEnd)))).2, ih.2]
    exact ahead.length_leaf ih.1 r state _
  | @rest s la leaf cost ahead built all ih =>
    have inside := ih.1
    have length : leaf.length = task.text.size - la.start.offset := by
      rw [all, Repair.length_errorLeaf, Size.ofText, Array.size_extract]
      omega
    show la.start.offset + leaf.length ≤ _ ∧ _ = la.start.offset + leaf.length
    rw [(whole_skip (built_whole founded measured built)
      (all ▸ Repair.measured_errorLeaf _)).2, ih.2]
    omega

omit founded in
theorem placeOver_le {es : List StackEntry} {offset : Nat}
    (within : ∀ e ∈ es, e.stop.offset ≤ offset) : (placeOver es).offset ≤ offset := by
  cases es with
  | nil => exact Nat.zero_le _
  | cons e es => exact within e List.mem_cons_self

/-- No entry of a stack ends behind the stack. -/
theorem built_stops (fits : Green.Fits task.text old) (small : task.text.size ≤ Size.largest)
    {offset : Nat} {entries : List StackEntry} (built : Built task old offset entries) :
    ∀ e ∈ entries, e.stop.offset ≤ offset := by
  -- A move never goes back, so what is on the stack stays within it.
  have later {es : List StackEntry} {before after : Nat} (le : before ≤ after)
      (within : ∀ e ∈ es, e.stop.offset ≤ before) : ∀ e ∈ es, e.stop.offset ≤ after :=
    fun e he => (within e he).trans le
  have push {es : List StackEntry} {e : StackEntry} {before : Nat} (le : before ≤ e.stop.offset)
      (within : ∀ f ∈ es, f.stop.offset ≤ before) : ∀ f ∈ e :: es, f.stop.offset ≤ e.stop.offset :=
    List.forall_mem_cons.mpr ⟨Nat.le_refl _, later le within⟩
  induction built with
  | start => exact fun _ he => absurd he List.not_mem_nil
  | reduce ahead built action reduced ih =>
    refine (Stack.reduces_of_reduce? reduced).forall_mem ih (fun _ _ h => h) ?_
    exact fun _ _ _ _ inside below => placeOver_le (List.forall_mem_append.mpr ⟨inside, below⟩)
  | extra r state fragile ahead built free ih =>
    have inside := (built_spread founded fits small built).1
    exact push (ahead.proper founded fits inside).le_stop ih
  | shift r state fragile ahead built action ih =>
    have inside := (built_spread founded fits small built).1
    exact push (ahead.proper founded fits inside).le_stop ih
  | subtree ahead built fitting ih => exact push (Nat.le_add_right _ _) ih
  | missing ahead built action ih => exact push (Nat.le_refl _) ih
  | @wrap s offset t allowed c built wrapped ih =>
    refine Repair.forall_mem_wrap wrapped ih fun _ => ?_
    exact (congrArg Position.offset s.position_eq).trans_le (placeOver_le ih)
  | skip r state cost ahead built notEnd ih =>
    have inside := (built_spread founded fits small built).1
    exact Repair.forall_mem_skip (later (ahead.proper founded fits inside).le_stop ih)
      fun _ _ => Nat.le_refl _
  | rest cost ahead built all ih =>
    exact Repair.forall_mem_skip (later (Nat.le_add_right _ _) ih) fun _ _ => Nat.le_refl _

/-! ## Roots -/

/-- A node of the start symbol has no text but that of its children. -/
theorem spread_start {e : StackEntry} (whole : e.Whole g) (plain : e.extra = false)
    (start : e.node.symbol = task.language.startSymbol) :
    Green.spread e.node.children = e.node.length := by
  by_cases leaf : e.node.children = []
  · rcases whole.token plain leaf with empty | terminal
    · rw [leaf, empty]
      rfl
    · rw [start, founded.startSymbol_eq, founded.wf.start_nonterminal] at terminal
      cases terminal
  · exact (whole.measured.length_eq leaf).symm

theorem measured_accept {s : Stack} (whole : ∀ e ∈ s.entries, e.Whole g) :
    (Run.accept task.language s).value.Measured ∧
      (Run.accept task.language s).value.length = Green.spread (nodesOf s.entries) := by
  have measured : ∀ c ∈ nodesOf s.entries, c.Measured :=
    forall_mem_nodesOf.mpr fun e he => (whole e he).measured
  rcases Run.accept_cases task.language s with
    error | ⟨before, main, after, entries, extras, plain, start, shape⟩
  · rw [error]
    exact Repair.measured_errorNode measured
  · have nodes : nodesOf s.entries =
        before.map (·.node) ++ main.node :: after.map (·.node) := by
      rw [nodesOf, ← List.map_reverse, entries, List.map_append, List.map_cons]
    have here : main ∈ s.entries := by
      rw [← List.mem_reverse, entries]
      simp
    have inside := (whole main here).measured
    rcases shape with ⟨none, root⟩ | root
    · rw [root, nodes]
      rw [List.append_eq_nil_iff] at none
      rw [none.1, none.2]
      exact ⟨inside, by simp⟩
    · have spread := spread_start founded (whole main here) plain start
      rw [root, nodes]
      refine ⟨.of_spread (fun c hc => ?_) (by simp) (by simpa using inside.symbol_ne), ?_⟩
      · rw [Green.children_withChildren] at hc
        rcases List.mem_append.mp hc with hc | hc
        · rcases List.mem_append.mp hc with hc | hc
          · exact measured c (nodes ▸ List.mem_append_left _ hc)
          · exact inside.of_mem c hc
        · exact measured c (nodes ▸ List.mem_append_right _ (List.mem_cons_of_mem _ hc))
      · simp only [Green.length_withChildren, Green.spread_append, Green.spread_cons, spread]
        omega

end Founded

end Glr
