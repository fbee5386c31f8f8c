import Glr.Proofs.Grown
import Glr.Proofs.Paths
import Glr.Proofs.Turns

/-!
# Every tree is a derivation around its errors

The nodes on a stack have grown as the grammar says, the fillers among them are just the extras, and
the others are moves of the automaton.  These three go together: a reduction finds the right side of
its production on the stack because the entries are moves, and may put a node over it because the
extras between them are fillers and no filler is at either end.

What a parse takes over from an old tree has grown in an earlier parse and was left alone by every
edit since.  A subtree is pushed for its symbol alone, just as the node of a reduction is.
-/

namespace Glr

variable {g : FlatGrammar} {a : Automaton} {task : ParseTask} {old : Option Green}
  {la : Lookahead}

/-- The leaf of the token ahead has grown, and is a token. -/
theorem Ahead.leaf_grown (rooted : ∀ root ∈ old, root.Rooted g) (ahead : Ahead task old la)
    (r : Run) (state : StateId) (flags : NodeFlags) (missing : flags.missing = false) :
    (r.makeLeaf la state flags).1.Grown g ∧ (r.makeLeaf la state flags).1.production = none ∧
      (r.makeLeaf la state flags).1.symbol = la.token.symbol ∧
      (r.makeLeaf la state flags).1.isLeaf = true ∧
      (r.makeLeaf la state flags).1.isExtra = flags.extra := by
  cases ahead with
  | @reused place leaf held isLeaf nonempty undamaged correct =>
    obtain ⟨root, hroot, held⟩ := held
    have noChildren : leaf.children = [] := List.isEmpty_iff.mp isLeaf
    obtain ⟨production, grown⟩ :=
      ((rooted root hroot).of_holds held).1.token noChildren nonempty undamaged
    rw [Run.makeLeaf]
    dsimp only [Run.reusedLookahead, Checked.value_bind, Checked.value_pure]
    split
    · next same =>
      refine ⟨grown.withFlags production noChildren flags missing, ?_, ?_, ?_, ?_⟩
      · rw [Green.production_withFlags, production]
      · rw [Green.symbol_withFlags]
      · rw [Green.isLeaf, Green.children_withFlags]
        exact isLeaf
      · rw [Green.isExtra, Green.flags_withFlags, NodeFlags.union_extra,
          ← beq_iff_eq.mp same]
        exact Bool.or_self _
    · exact ⟨.leaf _, rfl, rfl, rfl, rfl⟩
  | lexed place valid mode => exact ⟨.leaf _, rfl, rfl, rfl, rfl⟩

/-- What is known of an entry: its node has grown, it is an extra just if that is a filler, and
otherwise a token is a terminal. -/
structure StackEntry.Sprouted (g : FlatGrammar) (e : StackEntry) : Prop where
  grown : e.node.Grown g
  filler : e.node.isFiller = e.extra
  token : e.extra = false → e.node.production = none → g.isTerminal e.node.symbol = true

theorem StackEntry.Sprouted.of_filler {e : StackEntry} (grown : e.node.Grown g)
    (filler : e.node.isFiller = true) (extra : e.extra = true) : e.Sprouted g :=
  ⟨grown, filler.trans extra.symm, fun plain => by rw [extra] at plain; cases plain⟩

theorem isFiller_of_isError {n : Green} (h : n.symbol = Symbol.error) : n.isFiller = true := by
  rw [Green.isFiller, Green.isError, h]
  rfl

theorem not_isFiller {n : Green} (symbol : 2 ≤ n.symbol)
    (inner : n.isLeaf = false ∨ n.isExtra = false) : n.isFiller = false := by
  have noError : n.isError = false := by
    rw [Green.isError, beq_eq_false_iff_ne]
    intro same
    rw [same] at symbol
    exact absurd symbol (by decide)
  rw [Green.isFiller, noError, Bool.false_or, Bool.and_eq_false_iff]
  exact inner

/-- Without the fillers, the nodes of entries are those of the moves. -/
theorem spelling_nodesOf {es : List StackEntry} (sprouted : ∀ e ∈ es, e.Sprouted g) :
    ((nodesOf es).filter (!·.isFiller)).map Green.symbol = (symbolsOf es).reverse := by
  induction es with
  | nil => rfl
  | cons e es ih =>
    have rest := ih fun f hf => sprouted f (List.mem_cons_of_mem e hf)
    have here := (sprouted e List.mem_cons_self).filler
    rw [nodesOf_cons, List.filter_append, List.map_append, rest, List.filter_singleton, here]
    cases extra : e.extra with
    | true =>
      rw [symbolsOf_extra extra]
      exact List.append_nil _
    | false =>
      rw [symbolsOf_move extra, List.reverse_cons]
      rfl

/-! ## Stacks -/

/-- What is known of the entries of a stack. -/
structure Sprouting (g : FlatGrammar) (a : Automaton) (es : List StackEntry) : Prop where
  laid : Laid a es
  sprouted : ∀ e ∈ es, e.Sprouted g

namespace Sprouting

variable {es taken below : List StackEntry}

theorem of_append (h : Sprouting g a (taken ++ below)) : Sprouting g a below :=
  ⟨h.laid.of_append, fun e he => h.sprouted e (List.mem_append_right _ he)⟩

theorem push_extra (h : Sprouting g a es) {e : StackEntry} (grown : e.node.Grown g)
    (filler : e.node.isFiller = true) (extra : e.extra = true) (state : e.state = stateOver es) :
    Sprouting g a (e :: es) := by
  refine ⟨.extra h.laid extra state, fun f hf => ?_⟩
  rcases List.mem_cons.mp hf with rfl | hf
  · exact .of_filler grown filler extra
  · exact h.sprouted f hf

theorem push_move (h : Sprouting g a es) {e : StackEntry} {state : LrState}
    (grown : e.node.Grown g) (plain : e.extra = false) (filler : e.node.isFiller = false)
    (token : e.node.production = none → g.isTerminal e.node.symbol = true)
    (found : a.states[stateOver es]? = some state)
    (moves : state.moves.lookup e.node.symbol = some e.state) : Sprouting g a (e :: es) := by
  refine ⟨.move h.laid plain found moves, fun f hf => ?_⟩
  rcases List.mem_cons.mp hf with rfl | hf
  · exact ⟨grown, filler.trans plain.symm, fun _ => token⟩
  · exact h.sprouted f hf

theorem grown (h : Sprouting g a es) : ∀ c ∈ nodesOf es, c.Grown g :=
  forall_mem_nodesOf.mpr fun e he => (h.sprouted e he).grown

/-- A skipped token goes into an error. -/
theorem skip {s : Stack} (h : Sprouting g a s.entries) {leaf : Green} (grown : leaf.Grown g)
    (stop : Position) (cost : Nat) :
    Sprouting g a (Repair.skip s leaf stop cost).value.entries := by
  obtain ⟨taken, below, children, entries, takes, result⟩ := Repair.skip_spec s leaf stop cost
  rw [entries] at h
  rw [result]
  have inside : ∀ c ∈ children, c.Grown g := takes.forall_mem (fun own => own.of_mem)
    fun e he => (h.sprouted e (List.mem_append_left _ he)).grown
  exact h.of_append.push_extra (Repair.grown_errorNode
    (List.forall_mem_append.mpr ⟨inside, List.forall_mem_singleton.mpr grown⟩))
    (isFiller_of_isError rfl) rfl rfl

/-- Extras keep their place over another state. -/
theorem restate (h : Sprouting g a es) {trailing : List StackEntry}
    (extras : ∀ e ∈ trailing, e.extra = true) (sprouted : ∀ e ∈ trailing, e.Sprouted g) :
    Sprouting g a (trailing.map (fun e => { e with state := stateOver es }) ++ es) := by
  refine ⟨h.laid.restate extras, fun e he => ?_⟩
  rcases List.mem_append.mp he with he | he
  · obtain ⟨f, hf, rfl⟩ := List.mem_map.mp he
    exact ⟨(sprouted f hf).grown, (sprouted f hf).filler, (sprouted f hf).token⟩
  · exact h.sprouted e he

end Sprouting

section Founded

variable {l : Language} (founded : l.Founded g a)

include founded

/-- The entries that a reduction takes spell the right side of its production. -/
theorem spells_reduced {taken below : List StackEntry} {id : ProductionId} {p : Production}
    {t : Symbol} (laid : Laid a (taken ++ below)) (known : l.production? id = some p)
    (action : .reduce id ∈ l.actions (stateOver (taken ++ below)) t)
    (counted : (taken.filter (!·.extra)).length = p.length) :
    ∃ production, g.productions[id]? = some production ∧ p.lhs = production.lhs ∧
      (symbolsOf taken).reverse = production.rhs := by
  have co := Automaton.coherent_ofGrammar founded.tab.automaton
  obtain ⟨state, production, found, hp, mem⟩ := founded.tab.reduce_sound action
  obtain ⟨production', hp', lhs, length⟩ := founded.production_of_known known
  obtain rfl := Option.some.inj (hp'.symm.trans hp)
  have count : (symbolsOf taken).length = production'.rhs.length := by
    rw [symbolsOf, List.length_map, counted, length]
  refine ⟨production', hp, lhs, ?_⟩
  rw [laid.spells co found (count ▸ mem), FlatGrammar.rhs_eq hp, count, List.take_length]

/-- The node of a reduction has grown. -/
theorem grown_reduced {taken : List StackEntry} {id : ProductionId} {production : FlatProduction}
    {spec : Green.NodeSpec} (sprouted : ∀ e ∈ taken, e.Sprouted g)
    (found : g.productions[id]? = some production) (lhs : spec.symbol = production.lhs)
    (hid : spec.production = some id) (rhs : (symbolsOf taken).reverse = production.rhs)
    (missing : spec.flags.missing = false) (extra : spec.flags.extra = false)
    (top : ∀ e ∈ taken.head?, e.extra = false) (bottom : ∀ e ∈ taken.getLast?, e.extra = false) :
    (Green.node spec (nodesOf taken)).value.Grown g := by
  have unique : ∀ id', spec.production = some id' → id' = id := fun id' h =>
    Option.some.inj (h.symm.trans hid)
  have filler : ∀ e ∈ taken, e.extra = false → e.node.isFiller = false := fun e he plain =>
    (sprouted e he).filler.trans plain
  refine .intro ⟨?_, ?_, ?_, ?_, ?_, ?_, ?_⟩ (fun _ => ⟨?_, ?_⟩) ?_
  · intro id' h
    rw [unique id' h]
    exact ⟨production, found, lhs, (spelling_nodesOf sprouted).trans rhs⟩
  · intro _ _ c hc plain token
    obtain ⟨e, he, rfl⟩ := mem_nodesOf.mp hc
    exact (sprouted e he).token ((sprouted e he).filler.symm.trans plain) token
  · intro none
    rw [Green.production_node, hid] at none
    cases none
  · intro _ _ none _
    rw [Green.children_node] at none
    rw [Green.length_node, none]
    rfl
  · rintro (wrong | absent)
    · have terminal := founded.wf.terminal_error
      rw [Green.isError, Green.symbol_node, lhs, beq_iff_eq] at wrong
      rw [← wrong, founded.wf.lhs_nonterminal production (Array.mem_of_getElem? found)] at terminal
      cases terminal
    · rw [Green.isMissing_node, missing] at absent
      cases absent
  · intro c hc error
    have inside : (nodesOf taken).any (·.hasError) = true := List.any_eq_true.mpr ⟨c, hc, error⟩
    rw [Green.hasError_node, inside, Bool.or_true, Bool.true_or]
  · intro _ _
    rw [Green.isExtra_node, Green.isMissing_node]
    exact ⟨extra, missing⟩
  · intro c hc
    rw [Green.children_node, nodesOf, List.head?_reverse, List.getLast?_map] at hc
    obtain ⟨e, he, rfl⟩ := Option.map_eq_some_iff.mp hc
    exact filler e (List.mem_of_getLast? he) (bottom e he)
  · intro c hc
    rw [Green.children_node, nodesOf, List.getLast?_reverse, List.head?_map] at hc
    obtain ⟨e, he, rfl⟩ := Option.map_eq_some_iff.mp hc
    exact filler e (List.mem_of_head? he) (top e he)
  · exact forall_mem_nodesOf.mpr fun e he => (sprouted e he).grown

theorem Sprouting.reduces {id : ProductionId} {es es' : List StackEntry} {t : Symbol}
    (h : Sprouting g a es) (action : .reduce id ∈ l.actions (stateOver es) t)
    (reduces : Stack.Reduces l id es es') : Sprouting g a es' := by
  cases reduces with
  | @intro trailing taken below p target lookahead fragile known extras counted top bottom
      goto =>
    have base := h.of_append
    rw [h.laid.stateOver_extras extras] at action
    obtain ⟨production, found, lhs, rhs⟩ :=
      spells_reduced founded base.laid known action counted
    obtain ⟨state, here, moves⟩ := founded.goto_sound goto
    have first : ∀ e ∈ taken.head?, e.extra = false := by
      intro e he
      refine top e ?_
      rw [List.head?_append, Option.mem_def.mp he]
      rfl
    have grown : (Green.node ⟨p.lhs, some id, stateOver below, lookahead, p.dynamicPrecedence,
        NodeFlags.fragileIf fragile⟩ (nodesOf taken)).value.Grown g :=
      grown_reduced founded (fun e he => base.sprouted e (List.mem_append_left _ he)) found lhs rfl
        rhs rfl rfl first bottom
    have unreserved := founded.unreserved_of_nonterminal (founded.lhs_nonterminal known)
    have pushed : Sprouting g a (⟨target, (Green.node ⟨p.lhs, some id, stateOver below, lookahead,
        p.dynamicPrecedence, NodeFlags.fragileIf fragile⟩ (nodesOf taken)).value,
          placeOver (taken ++ below), false⟩ :: below) := by
      refine base.of_append.push_move grown rfl ?_ (fun none => nomatch none) here moves
      exact not_isFiller unreserved (Or.inr (Green.isExtra_node _ _))
    exact pushed.restate extras fun e he => h.sprouted e (List.mem_append_left _ he)

end Founded

/-! ## All stacks -/

theorem built_sprouting (founded : task.language.Founded g a)
    (rooted : ∀ root ∈ old, root.Rooted g) {offset : Nat} {entries : List StackEntry}
    (built : Built task old offset entries) : Sprouting g a entries := by
  induction built with
  | start => exact ⟨.bottom, fun _ he => absurd he List.not_mem_nil⟩
  | @reduce s la t id fragile c ahead built action reduced ih =>
    rw [Stack.state_eq] at action
    exact ih.reduces founded action (Stack.reduces_of_reduce? reduced)
  | @extra s la r state fragile ahead built free ih =>
    obtain ⟨grown, -, -, leaf, extra⟩ :=
      ahead.leaf_grown rooted r state { NodeFlags.onlyExtra with fragile } rfl
    refine ih.push_extra grown ?_ rfl (Stack.state_eq s)
    exact (Bool.or_eq_true _ _).mpr (Or.inr ((Bool.and_eq_true _ _).mpr ⟨leaf, extra⟩))
  | @shift s la target r state fragile ahead built action ih =>
    obtain ⟨grown, -, symbol, -, extra⟩ :=
      ahead.leaf_grown rooted r state (NodeFlags.fragileIf fragile) rfl
    obtain ⟨from', found, moves⟩ := founded.tab.shift_sound action
    rw [Stack.state_eq] at found
    refine ih.push_move grown rfl ?_ (fun _ => ?_) found (symbol ▸ moves)
    · exact not_isFiller (symbol ▸ founded.unreserved_of_shift action) (Or.inr extra)
    · exact symbol ▸ founded.isTerminal_of_action action
  | @subtree s la n target ahead built fitting ih =>
    obtain ⟨root, hroot, held⟩ := fitting.held
    obtain ⟨state, found, moves⟩ := founded.goto_sound fitting.goto
    rw [Stack.state_eq] at found
    have grown := ((rooted root hroot).of_holds held).1.grown fitting.sturdy
    have unreserved := founded.unreserved_of_nonterminal
      (founded.tab.gotoTerminal fitting.goto)
    have filler := not_isFiller unreserved (Or.inl fitting.inner)
    refine ih.push_move grown rfl filler (fun none => ?_) found moves
    -- A node of a nonterminal that has children is no token.
    rcases grown.shaped.leaf none with wrong | leaf
    · rw [Green.isFiller, wrong] at filler
      cases filler
    · exact absurd leaf (Green.children_ne_nil fitting.inner)
  | @missing s la t target ahead built action ih =>
    obtain ⟨from', found, moves⟩ := founded.tab.shift_sound action
    rw [Stack.state_eq] at found
    refine ih.push_move (.leaf _) rfl ?_ (fun _ => ?_) found moves
    · exact not_isFiller (founded.unreserved_of_shift action) (Or.inr rfl)
    · exact founded.isTerminal_of_action action
  | wrap built wrapped ih =>
    obtain ⟨taken, below, entries, -, result⟩ := Repair.wrap_spec wrapped
    rw [result]
    rw [entries] at ih
    refine ih.of_append.push_extra (Repair.grown_errorNode ?_) (isFiller_of_isError rfl) rfl rfl
    exact forall_mem_nodesOf.mpr fun e he => (ih.sprouted e (List.mem_append_left _ he)).grown
  | @skip s la r state cost ahead built notEnd ih =>
    exact ih.skip (ahead.leaf_grown rooted r state NodeFlags.none rfl).1 la.stop cost
  | rest cost ahead built all ih =>
    exact ih.skip (all ▸ Repair.grown_errorLeaf _) _ cost

end Glr
