import Glr.Proofs.Coverage
import Glr.Proofs.Locality
import Glr.Proofs.Tokens

/-!
# What a tree tells of its text

A parse reads the tokens of its tree itself or takes them from an old tree, and the tree tells how:
each token is what the lexer reads at its offset in its mode (`Language.Reads`), the modes apart
that stand for no set of terminals, as long as the same is true of what the old tree lends
(`Language.Recalls`).

The nodes above a token tell how far the text behind them was looked at.  A node that a reduction
makes covers all its children with that (`Green.Reaching`).  An error does not: it is made with a
lookahead of nothing, whatever is inside of it.

Both are shown move by move.  The lookahead of a new node is counted from where the stack says that
its children end, so the places that a stack notes have to be right too (`Tiled`).
-/

namespace Glr

/-! ## Lookaheads of nodes -/

namespace Green

/-- No node of a tree but the errors has a child that was decided by looking further than the node
says. -/
inductive Reaching : Green → Prop where
  | intro {g : Green} (below : ∀ c ∈ g.children, Reaching c) (small : g.lookahead ≤ Size.largest)
      (covers : g.isError = false → ∀ before c after, g.children = before ++ c :: after →
        spread before + c.length + c.lookahead ≤ g.length + g.lookahead) : Reaching g

namespace Reaching

variable {g c : Green}

theorem of_mem : g.Reaching → ∀ c ∈ g.children, c.Reaching
  | intro below _ _ => below

theorem small : g.Reaching → g.lookahead ≤ Size.largest
  | intro _ small _ => small

theorem covers : g.Reaching → g.isError = false → ∀ before c after,
    g.children = before ++ c :: after →
      spread before + c.length + c.lookahead ≤ g.length + g.lookahead
  | intro _ _ covers => covers

theorem of_leaf (leaf : g.children = []) (small : g.lookahead ≤ Size.largest) : g.Reaching :=
  intro (fun _ hc => absurd (leaf ▸ hc) List.not_mem_nil) small fun _ before c after among => by
    rw [leaf] at among
    simp at among

theorem of_error (wrong : g.isError = true) (small : g.lookahead ≤ Size.largest)
    (below : ∀ c ∈ g.children, c.Reaching) : g.Reaching :=
  intro below small fun right => by
    rw [wrong] at right
    cases right

/-- What stands in a tree is decided within what the tree says, unless there is an error around
it. -/
theorem of_holds {root n : Green} {o : Nat} (reaching : root.Reaching) (held : root.Holds o n) :
    n.Reaching ∧ (o + n.length + n.lookahead ≤ root.length + root.lookahead ∨
      ∃ a e i, root.Holds a e ∧ e.isError = true ∧ e.Holds i n ∧ o = a + i) := by
  induction held with
  | root => exact ⟨reaching, Or.inl (by omega)⟩
  | @child start g c before after above among ih =>
    obtain ⟨inner, reach⟩ := ih
    have down : g.Holds (spread before) c := by
      have := (Holds.root : g.Holds 0 g).child among
      rwa [Nat.zero_add] at this
    refine ⟨inner.of_mem c (by simp [among]), ?_⟩
    rcases reach with reach | ⟨a, e, i, outer, wrong, below, rfl⟩
    · cases wrong : g.isError with
      | true => exact Or.inr ⟨start, g, spread before, above, wrong, down, rfl⟩
      | false =>
        have := inner.covers wrong before c after among
        exact Or.inl (by omega)
    · exact Or.inr ⟨a, e, i + spread before, outer, wrong, below.trans down, Nat.add_assoc ..⟩

end Reaching

end Green

theorem le_reachOver (reach start : Nat) (gs : List Green) : reach ≤ reachOver reach start gs := by
  induction gs generalizing reach start with
  | nil => exact Nat.le_refl _
  | cons g gs ih => exact (Nat.le_max_left _ _).trans (ih _ _)

theorem le_reachOver_of_mem (reach start : Nat) {before after : List Green} {c : Green} :
    start + Green.spread before + c.length + c.lookahead ≤
      reachOver reach start (before ++ c :: after) := by
  induction before generalizing reach start with
  | nil =>
    show start + c.length + c.lookahead ≤
      reachOver (max reach (start + c.length + c.lookahead)) (start + c.length) after
    exact (Nat.le_max_right _ _).trans (le_reachOver _ _ _)
  | cons g before ih =>
    have := ih (max reach (start + g.length + g.lookahead)) (start + g.length)
    rw [Green.spread_cons, ← Nat.add_assoc start]
    exact this

theorem value_nodeLookahead (la : Lookahead) (stop : Nat) (cs : List Green) :
    (nodeLookahead la stop cs).value =
      min (reachOver (la.token.span.stop + la.token.lookahead) (stop - Green.spread cs) cs - stop)
        Size.largest := by
  rw [← Green.value_totalLength]
  rfl

/-- A reduction makes nodes that cover their children. -/
theorem Green.reaching_node {spec : NodeSpec} {cs : List Green} {la : Lookahead} {stop : Nat}
    (looked : spec.lookahead = (nodeLookahead la stop cs).value) (le : spread cs ≤ stop)
    (below : ∀ c ∈ cs, c.Reaching) : (node spec cs).value.Reaching := by
  have lookahead : (node spec cs).value.lookahead = (nodeLookahead la stop cs).value := looked
  rw [value_nodeLookahead] at lookahead
  refine .intro below ?_ fun _ before c after among => ?_
  · rw [lookahead]
    exact Nat.min_le_right _ _
  · rw [children_node] at among
    have small := (below c (by simp [among])).small
    have reached : stop - spread cs + spread before + c.length + c.lookahead ≤
        reachOver (la.token.span.stop + la.token.lookahead) (stop - spread cs)
          (before ++ c :: after) := le_reachOver_of_mem _ _
    have length : (node spec cs).value.length = spread cs := length_node spec cs
    have inside : spread cs = spread before + (c.length + spread after) := by
      rw [among, spread_append, spread_cons]
    rw [← among] at reached
    omega

theorem Repair.reaching_errorNode {gs : List Green} (reaching : ∀ g ∈ gs, g.Reaching) :
    (errorNode gs).value.Reaching := by
  refine .of_error rfl (Nat.zero_le _) fun c hc => ?_
  rcases mem_of_mem_flatten hc with hc | ⟨g, hg, -, hc⟩
  · exact reaching c hc
  · exact (reaching g hg).of_mem c hc

/-! ## Places -/

/-- Every place on a stack is right: it is as far as the nodes below it go. -/
def Tiled (es : List StackEntry) : Prop :=
  ∀ below, below <:+ es → (placeOver below).offset = Green.spread (nodesOf below)

namespace Tiled

variable {es taken below : List StackEntry}

theorem nil : Tiled [] := by
  intro below suffix
  rw [List.suffix_nil.mp suffix]
  rfl

theorem of_append (h : Tiled (taken ++ below)) : Tiled below := fun lower suffix =>
  h lower (suffix.trans (List.suffix_append taken below))

theorem here (h : Tiled es) : (placeOver es).offset = Green.spread (nodesOf es) :=
  h es (List.suffix_refl es)

theorem push (h : Tiled es) {e : StackEntry}
    (stop : e.stop.offset = Green.spread (nodesOf es) + e.node.length) : Tiled (e :: es) := by
  intro below suffix
  rcases List.suffix_cons_iff.mp suffix with rfl | suffix
  · rw [spread_push]
    exact stop
  · exact h below suffix

/-- Other states and other entries below of as much text change nothing. -/
theorem restate {trailing : List StackEntry} (h : Tiled (trailing ++ taken)) (lower : Tiled below)
    (spread : Green.spread (nodesOf below) = Green.spread (nodesOf taken)) (state : StateId) :
    Tiled (trailing.map (fun e => { e with state }) ++ below) := by
  induction trailing with
  | nil => exact lower
  | cons e trailing ih =>
    have later : Tiled ([e] ++ (trailing ++ taken)) := h
    refine (ih later.of_append).push ?_
    have := h.here
    rw [List.cons_append, spread_push] at this
    rw [nodesOf_append, Green.spread_append, nodesOf_restate, spread, ← Green.spread_append,
      ← nodesOf_append]
    exact this

end Tiled

/-! ## Readings -/

/-- A token of a tree is what the lexer reads at its offset, unless it has an error or a mode that
stands for no one set of terminals. -/
def Language.Reads (l : Language) (text : Text) (t : Nat × Green) : Prop :=
  t.2.hasError = false → t.2.lexMode ≠ LexMode.recovery → t.2.lexMode ≠ LexMode.union →
    l.nextToken text t.1 t.2.lexMode = t.2.token t.1

theorem Language.reads_of_error {l : Language} {text : Text} {t : Nat × Green}
    (wrong : t.2.hasError = true) : l.Reads text t := fun correct => by
  rw [wrong] at correct
  cases correct

/-- What is neither damaged nor wrong in an old tree tells of a text: its tokens are what the lexer
reads, and its nodes tell how far the text was looked at. -/
def Language.Recalls (l : Language) (text : Text) (old : Option Green) : Prop :=
  ∀ root ∈ old, ∀ o n, root.Holds o n → n.isDamaged = false → n.hasError = false →
    (∀ t ∈ Green.tokensAt o n, l.Reads text t) ∧ n.Reaching

theorem Language.recalls_none (l : Language) (text : Text) : l.Recalls text none :=
  fun root hroot => absurd hroot (Option.not_mem_none root)

variable {g : FlatGrammar} {a : Automaton} {task : ParseTask} {old : Option Green} {la : Lookahead}

namespace Ahead

/-- The leaf that is made of a token that was taken over is read as what it was taken from. -/
theorem token_reused (r : Run) (place : Position) (leaf : Green) (state : StateId)
    (flags : NodeFlags) :
    (r.makeLeaf (Run.reusedLookahead place leaf).value state flags).1.token place.offset =
      leaf.token place.offset := by
  have withFlags : (leaf.withFlags flags).token place.offset = leaf.token place.offset := by
    rw [Green.withFlags]
    split <;> rfl
  rw [Run.makeLeaf]
  dsimp only [Run.reusedLookahead, Checked.value_bind, Checked.value_pure]
  split
  · exact withFlags
  · show Token.mk leaf.symbol ⟨place.offset, place.offset + (place.offset + leaf.length -
      place.offset)⟩ leaf.extent leaf.lookahead leaf.lexMode false = _
    rw [Nat.add_sub_cancel_left]
    rfl

/-- What is taken over for the token ahead is what the lexer reads and tells how far it looked. -/
theorem recalled {place : Position} {leaf : Green} (recalls : task.language.Recalls task.text old)
    (held : ∃ root ∈ old, root.Holds place.offset leaf) (isLeaf : leaf.isLeaf = true)
    (nonempty : 0 < leaf.length) (undamaged : leaf.isDamaged = false)
    (correct : leaf.hasError = false) :
    task.language.Reads task.text (place.offset, leaf) ∧ leaf.lookahead ≤ Size.largest := by
  obtain ⟨root, hroot, held⟩ := held
  obtain ⟨reads, reaching⟩ := recalls root hroot _ _ held undamaged correct
  have token := (Green.Holds.root : leaf.Holds 0 leaf).mem_tokensAt isLeaf nonempty place.offset
  exact ⟨reads _ token, reaching.small⟩

/-- The leaf of the token ahead is what the lexer reads. -/
theorem reads (ahead : Ahead task old la) (recalls : task.language.Recalls task.text old)
    (inside : la.start.offset ≤ task.text.size) (r : Run) (state : StateId) (flags : NodeFlags) :
    task.language.Reads task.text (la.start.offset, (r.makeLeaf la state flags).1) := by
  cases ahead with
  | @reused place leaf held isLeaf nonempty undamaged correct =>
    obtain ⟨reads, -⟩ := recalled recalls held isLeaf nonempty undamaged correct
    have same := token_reused r place leaf state flags
    generalize (r.makeLeaf _ state flags).1 = made at same ⊢
    have mode : made.lexMode = leaf.lexMode := congrArg Token.lexMode same
    intro _ noRecovery noUnion
    show task.language.nextToken task.text place.offset made.lexMode = made.token place.offset
    rw [same, mode]
    exact reads correct (mode ▸ noRecovery) (mode ▸ noUnion)
  | lexed place valid mode set =>
    intro correct noRecovery noUnion
    have inside : place.offset ≤ task.text.size := inside
    have placed := task.language.placed_nextTokenIn task.text place.offset valid mode
    rw [Nat.min_eq_left inside] at placed
    have kept := task.language.lexMode_nextTokenIn task.text place.offset valid mode
    generalize lexed : task.language.nextTokenIn task.text place.offset valid mode = t
      at correct noRecovery noUnion placed kept
    -- The leaf is made of the token, so what is known of the one is known of the other.
    have correct : (flags.hasError || (t.symbol == Symbol.error || flags.missing)) = false :=
      correct
    have noRecovery : t.lexMode ≠ LexMode.recovery := noRecovery
    have noUnion : t.lexMode ≠ LexMode.union := noUnion
    obtain rfl : t.lexMode = mode := kept.resolve_right noRecovery
    obtain rfl := set.resolve_left noUnion
    have right : t.isError = false := by
      cases wrong : t.isError with
      | false => rfl
      | true =>
        rw [placed.wrong wrong, beq_self_eq_true, Bool.true_or, Bool.or_true] at correct
        cases correct
    have stop := placed.le_stop
    show task.language.nextToken task.text place.offset t.lexMode =
      ⟨t.symbol, ⟨place.offset, place.offset + (t.span.stop - t.span.start)⟩, t.extent,
        t.lookahead, t.lexMode, false⟩
    rw [Language.nextToken, lexed, placed.start, Nat.add_sub_cancel' stop, ← placed.start, ← right]

theorem reaching (ahead : Ahead task old la) (recalls : task.language.Recalls task.text old)
    (unaided : task.language.scanner = none) (small : task.text.size ≤ Size.largest) (r : Run)
    (state : StateId) (flags : NodeFlags) : (r.makeLeaf la state flags).1.Reaching := by
  have noChildren := (ahead.leaf_spec r state flags).1
  cases ahead with
  | @reused place leaf held isLeaf nonempty undamaged correct =>
    obtain ⟨-, looked⟩ := recalled recalls held isLeaf nonempty undamaged correct
    exact .of_leaf noChildren
      ((congrArg Token.lookahead (token_reused r place leaf state flags)).trans_le looked)
  | lexed place valid mode set =>
    refine .of_leaf rfl ?_
    have := task.language.lookahead_nextTokenIn unaided task.text place.offset valid mode
    exact this.trans (Nat.max_le.mpr ⟨by decide, small⟩)

end Ahead

/-! ## Stacks -/

/-- What a stack tells of the text. -/
structure Truthful (task : ParseTask) (es : List StackEntry) : Prop where
  tiled : Tiled es
  reads : ∀ t ∈ Green.tokensIn 0 (nodesOf es), task.language.Reads task.text t
  reaching : ∀ e ∈ es, e.node.Reaching

namespace Truthful

variable {es taken below : List StackEntry}

theorem nil : Truthful task [] where
  tiled := .nil
  reads t ht := by simp at ht
  reaching e he := absurd he List.not_mem_nil

theorem of_append (h : Truthful task (taken ++ below)) : Truthful task below where
  tiled := h.tiled.of_append
  reads t ht := by
    refine h.reads t ?_
    rw [nodesOf_append, Green.tokensIn_append]
    exact List.mem_append_left _ ht
  reaching e he := h.reaching e (List.mem_append_right _ he)

theorem push (h : Truthful task es) {e : StackEntry}
    (stop : e.stop.offset = Green.spread (nodesOf es) + e.node.length)
    (reads : ∀ t ∈ Green.tokensAt (Green.spread (nodesOf es)) e.node,
      task.language.Reads task.text t) (reaching : e.node.Reaching) : Truthful task (e :: es) := by
  refine ⟨h.tiled.push stop, fun t ht => ?_, fun f hf => ?_⟩
  · rw [nodesOf_cons, Green.tokensIn_append, Nat.zero_add, Green.tokensIn_cons, Green.tokensIn_nil,
      List.append_nil] at ht
    rcases List.mem_append.mp ht with ht | ht
    · exact h.reads t ht
    · exact reads t ht
  · rcases List.mem_cons.mp hf with rfl | hf
    · exact reaching
    · exact h.reaching f hf

theorem push_leaf (h : Truthful task es) {e : StackEntry} (leaf : e.node.children = [])
    (stop : e.stop.offset = Green.spread (nodesOf es) + e.node.length)
    (reads : task.language.Reads task.text (Green.spread (nodesOf es), e.node))
    (reaching : e.node.Reaching) : Truthful task (e :: es) := by
  refine h.push stop (fun t ht => ?_) reaching
  rw [Green.eq_of_mem_tokensAt leaf ht]
  exact reads

/-- A reduction adds no token and keeps all in their places. -/
theorem reduces {l : Language} {id : ProductionId} {es' : List StackEntry}
    (h : Truthful task es) (reduces : Stack.Reduces l id es es') : Truthful task es' := by
  cases reduces with
  | @intro trailing taken below p target lookahead fragile known extras counted top bottom goto
      looked =>
    obtain ⟨la, looked⟩ := looked
    have base := h.of_append
    have place := base.tiled.here
    rw [nodesOf_append, Green.spread_append] at place
    have reaching : (Green.node ⟨p.lhs, some id, stateOver below, lookahead, p.dynamicPrecedence,
        NodeFlags.fragileIf fragile⟩ (nodesOf taken)).value.Reaching := by
      refine Green.reaching_node looked (by omega) (forall_mem_nodesOf.mpr fun e he => ?_)
      exact base.reaching e (List.mem_append_left _ he)
    refine ⟨h.tiled.restate (base.tiled.of_append.push ?_) ?_ target, fun t ht => h.reads t ?_,
      fun e he => ?_⟩
    · rw [Green.length_node]
      exact place
    · rw [spread_push, nodesOf_append, Green.spread_append, Green.length_node]
    · rw [nodesOf_append, nodesOf_cons, nodesOf_restate, Green.tokensIn_append, Green.tokensIn_append,
        Green.tokensIn_cons, Green.tokensAt_node, Green.tokensIn_nil, List.append_nil,
        Green.spread_append, Green.spread_cons, Green.spread_nil, Green.length_node,
        Nat.add_zero] at ht
      rw [nodesOf_append, nodesOf_append, Green.tokensIn_append, Green.tokensIn_append,
        Green.spread_append]
      exact ht
    · rcases List.mem_append.mp he with he | he
      · obtain ⟨f, hf, rfl⟩ := List.mem_map.mp he
        exact h.reaching f (List.mem_append_left _ hf)
      · rcases List.mem_cons.mp he with rfl | he
        · exact reaching
        · exact base.reaching e (List.mem_append_right _ he)

theorem reads_taken (h : Truthful task (taken ++ below)) :
    ∀ t ∈ Green.tokensIn (Green.spread (nodesOf below)) (nodesOf taken),
      task.language.Reads task.text t := by
  intro t ht
  refine h.reads t ?_
  rw [nodesOf_append, Green.tokensIn_append, Nat.zero_add]
  exact List.mem_append_right _ ht

theorem wrap (h : Truthful task (taken ++ below)) {gs : List Green}
    (measured : ∀ c ∈ gs, c.Measured)
    (reads : ∀ t ∈ Green.tokensIn (Green.spread (nodesOf below)) gs,
      task.language.Reads task.text t)
    (reaching : ∀ c ∈ gs, c.Reaching) {stop : Position}
    (here : stop.offset = Green.spread (nodesOf below) + Green.spread gs) :
    Truthful task (⟨stateOver below, (Repair.errorNode gs).value, stop, true⟩ :: below) := by
  refine h.of_append.push ?_ (fun t ht => reads t ?_) (Repair.reaching_errorNode reaching)
  · rw [(Repair.measured_errorNode measured).2]
    exact here
  · rwa [Green.tokensAt_errorNode measured] at ht

theorem skip {s : Stack} (h : Truthful task s.entries) (whole : ∀ e ∈ s.entries, e.Whole g)
    {leaf : Green} (noChildren : leaf.children = []) (measured : leaf.Measured)
    (reads : task.language.Reads task.text (Green.spread (nodesOf s.entries), leaf))
    (reaching : leaf.Reaching) {stop : Position}
    (here : stop.offset = Green.spread (nodesOf s.entries) + leaf.length) (cost : Nat) :
    Truthful task (Repair.skip s leaf stop cost).value.entries := by
  obtain ⟨taken, below, children, entries, takes, result⟩ := Repair.skip_spec s leaf stop cost
  rw [entries] at h whole reads here
  rw [result]
  obtain ⟨inside, spread⟩ :=
    measured_of_takesIn takes fun e he => whole e (List.mem_append_left _ he)
  rw [nodesOf_append, Green.spread_append, ← spread] at reads here
  have same (start : Nat) :
      Green.tokensIn start children = Green.tokensIn start (nodesOf taken) := by
    cases takes with
    | nothing => rfl
    | @error extras e plain extra wrong inner =>
      have some := Green.children_ne_nil inner
      have error := (whole e (by simp)).measured
      rw [nodesOf_append, nodesOf_cons, nodesOf_nil, List.nil_append, List.singleton_append,
        Green.tokensIn_cons, Green.tokensAt_of_inner some, Green.tokensIn_append,
        error.length_eq some]
  have reached : ∀ c ∈ children, c.Reaching := takes.forall_mem (fun own => own.of_mem)
    fun e he => h.reaching e (List.mem_append_left _ he)
  refine h.wrap ?_ (fun t ht => ?_) ?_ ?_
  · exact List.forall_mem_append.mpr ⟨inside, List.forall_mem_singleton.mpr measured⟩
  · rw [Green.tokensIn_append, Green.tokensIn_cons, Green.tokensIn_nil, List.append_nil,
      same] at ht
    rcases List.mem_append.mp ht with ht | ht
    · exact h.reads_taken t ht
    · rw [Green.eq_of_mem_tokensAt noChildren ht]
      exact reads
  · exact List.forall_mem_append.mpr ⟨reached, List.forall_mem_singleton.mpr reaching⟩
  · rw [Green.spread_append, Green.spread_cons, Green.spread_nil]
    omega

end Truthful

/-- Every stack of a parse is truthful if the old tree is. -/
theorem built_truthful (founded : task.language.Founded g a)
    (unaided : task.language.scanner = none) (small : task.text.size ≤ Size.largest)
    (fits : Green.Fits task.text old) (recalls : task.language.Recalls task.text old) {offset : Nat}
    {entries : List StackEntry} (built : Built task old offset entries) :
    Truthful task entries := by
  have whole : ∀ {offset : Nat} {entries : List StackEntry}, Built task old offset entries →
      ∀ e ∈ entries, e.Whole g := built_whole founded fun root hroot => (fits root hroot).1
  -- Where the token ahead stands, and where a stack ends that it is pushed on.
  have ahead_stop : ∀ {s : Stack} {la : Lookahead} (r : Run) (state : StateId) (flags : NodeFlags),
      Ahead task old la → Built task old la.start.offset s.entries →
      la.start.offset ≤ task.text.size ∧ Green.spread (nodesOf s.entries) = la.start.offset ∧
        la.stop.offset = la.start.offset + (r.makeLeaf la state flags).1.length := by
    intro s la r state flags ahead built
    obtain ⟨inside, spread⟩ := built_spread founded fits small built
    exact ⟨inside, spread, (ahead.length_leaf inside r state flags).symm⟩
  induction built with
  | start => exact .nil
  | reduce ahead built action reduced ih => exact ih.reduces (Stack.reduces_of_reduce? reduced)
  | @extra s la r state fragile ahead built free ih =>
    obtain ⟨inside, spread, stop⟩ :=
      ahead_stop r state { NodeFlags.onlyExtra with fragile } ahead built
    refine ih.push_leaf (ahead.leaf_spec r state _).1 ?_ ?_ (ahead.reaching recalls unaided small r state _)
    · rw [spread]
      exact stop
    · rw [spread]
      exact ahead.reads recalls inside r state _
  | @shift s la target r state fragile ahead built action ih =>
    obtain ⟨inside, spread, stop⟩ :=
      ahead_stop r state (NodeFlags.fragileIf fragile) ahead built
    refine ih.push_leaf (ahead.leaf_spec r state _).1 ?_ ?_ (ahead.reaching recalls unaided small r state _)
    · rw [spread]
      exact stop
    · rw [spread]
      exact ahead.reads recalls inside r state _
  | @subtree s la n target ahead built fitting ih =>
    obtain ⟨-, spread⟩ := built_spread founded fits small built
    obtain ⟨root, hroot, held⟩ := fitting.held
    obtain ⟨reads, reaching⟩ := recalls root hroot _ _ held fitting.undamaged fitting.correct
    refine ih.push ?_ (spread ▸ reads) reaching
    rw [spread]
    rfl
  | @missing s la t target ahead built action ih =>
    obtain ⟨-, spread⟩ := built_spread founded fits small built
    refine ih.push spread.symm (fun t ht => ?_) (.of_leaf rfl (Nat.zero_le _))
    rw [Green.tokensAt_of_leaf rfl, Green.length_leaf, if_pos rfl] at ht
    exact absurd ht List.not_mem_nil
  | @wrap s offset t allowed c built wrapped ih =>
    obtain ⟨taken, below, entries, -, result⟩ := Repair.wrap_spec wrapped
    have whole := whole built
    have place := ih.tiled.here
    rw [← s.position_eq] at place
    rw [entries] at ih whole place
    rw [result]
    have node : ∀ c ∈ nodesOf taken, c.Measured ∧ c.Reaching :=
      forall_mem_nodesOf.mpr fun e he =>
        have mem := List.mem_append_left below he
        ⟨(whole e mem).measured, ih.reaching e mem⟩
    refine ih.wrap (fun c hc => (node c hc).1) ih.reads_taken (fun c hc => (node c hc).2) ?_
    rw [place, nodesOf_append, Green.spread_append]
  | @skip s la r state cost ahead built notEnd ih =>
    obtain ⟨inside, spread, stop⟩ := ahead_stop r state NodeFlags.none ahead built
    obtain ⟨leaf, symbol, -⟩ := ahead.leaf_spec r state NodeFlags.none
    refine ih.skip (whole built) leaf
      (.of_leaf leaf (symbol ▸ ahead.symbol_ne_end (Or.inr notEnd))) ?_
      (ahead.reaching recalls unaided small r state _) ?_ cost
    · rw [spread]
      exact ahead.reads recalls inside r state _
    · rw [spread]
      exact stop
  | @rest s la leaf cost ahead built all ih =>
    obtain ⟨-, spread⟩ := built_spread founded fits small built
    subst all
    refine ih.skip (whole built) rfl (Repair.measured_errorLeaf _)
      (Language.reads_of_error rfl) (.of_leaf rfl (show 1 ≤ Size.largest by decide)) ?_ cost
    rw [spread]
    rfl

/-! ## Roots -/

/-- What the tree of a text tells of it.  Where the last stack was lost there is less of the tree
than of the text, and nothing that is no error. -/
structure Language.Tells (l : Language) (text : Text) (root : Green) : Prop where
  measured : root.Measured
  reads : ∀ t ∈ Green.tokensAt 0 root, l.Reads text t
  reaching : ∀ c ∈ root.children, c.Reaching
  covers : root.length = text.size ∨ ∀ t ∈ Green.tokensAt 0 root, t.2.hasError = true

namespace Run

variable {r : Run} {root : Green}

/-- What remains has no token but those of a live stack and errors. -/
theorem reads_remains (truthful : ∀ s ∈ r.live, Truthful task s.entries) :
    ∀ t ∈ Green.tokensIn 0 (r.remains task),
      task.language.Reads task.text t ∧ (r.live = [] → t.2.hasError = true) := by
  have best : ∀ t ∈ Green.tokensIn 0 (standing r.live),
      task.language.Reads task.text t ∧ (r.live = [] → t.2.hasError = true) := by
    intro t ht
    rw [standing] at ht
    split at ht
    · next s best =>
      have mem := Frontier.mem_of_best? best
      exact ⟨(truthful s mem).reads t ht, fun none => absurd (none ▸ mem) List.not_mem_nil⟩
    · rw [Green.tokensIn_nil] at ht
      exact absurd ht List.not_mem_nil
  intro t ht
  rw [remains_eq] at ht
  split at ht
  · rw [Green.tokensIn_append] at ht
    rcases List.mem_append.mp ht with ht | ht
    · exact best t ht
    · rw [Green.tokensIn_cons, Green.tokensIn_nil, List.append_nil] at ht
      rw [Green.eq_of_mem_tokensAt rfl ht]
      exact ⟨Language.reads_of_error rfl, fun _ => rfl⟩
  · exact best t ht

theorem reaching_remains (truthful : ∀ s ∈ r.live, Truthful task s.entries) :
    ∀ c ∈ r.remains task, c.Reaching := by
  intro c hc
  rcases mem_remains hc with ⟨s, hs, e, he, rfl⟩ | ⟨text, rfl⟩
  · exact (truthful s hs).reaching e he
  · exact .of_leaf rfl (show 1 ≤ Size.largest by decide)

section Founded

variable (founded : task.language.Founded g a)

include founded

/-- The root has the tokens of the stack that accepts, and its children are the nodes of that or
children of one of them. -/
theorem accept_spec {s : Stack} (whole : ∀ e ∈ s.entries, e.Whole g)
    (truthful : Truthful task s.entries) :
    (∀ t ∈ Green.tokensAt 0 (accept task.language s).value, task.language.Reads task.text t) ∧
      ∀ c ∈ (accept task.language s).value.children, c.Reaching := by
  have node : ∀ c ∈ nodesOf s.entries, c.Measured ∧ c.Reaching :=
    forall_mem_nodesOf.mpr fun e he => ⟨(whole e he).measured, truthful.reaching e he⟩
  rcases accept_cases task.language s with
    error | ⟨before, main, after, entries, extras, plain, start, shape⟩
  · rw [error, Green.tokensAt_errorNode fun c hc => (node c hc).1]
    exact ⟨truthful.reads, (Repair.reaching_errorNode fun c hc => (node c hc).2).of_mem⟩
  · have nodes : nodesOf s.entries =
        before.map (·.node) ++ main.node :: after.map (·.node) := by
      rw [nodesOf, ← List.map_reverse, entries, List.map_append, List.map_cons]
    have here : main ∈ s.entries := by
      rw [← List.mem_reverse, entries]
      simp
    have reads := truthful.reads
    have inside := (truthful.reaching main here).of_mem
    have spread := spread_start founded (whole main here) plain start
    rw [nodes] at node reads
    rcases shape with ⟨none, root⟩ | root
    · rw [List.append_eq_nil_iff] at none
      rw [root]
      rw [none.1, none.2, List.map_nil, List.nil_append, Green.tokensIn_cons, Green.tokensIn_nil,
        List.append_nil] at reads
      exact ⟨reads, inside⟩
    · rw [root, Green.tokensAt_of_spread (Green.length_withChildren _ _ _),
        Green.children_withChildren, List.append_assoc]
      refine ⟨fun t ht => reads t ?_, fun c hc => ?_⟩
      · rw [Green.tokensIn_append, Green.tokensIn_append, spread] at ht
        rwa [Green.tokensIn_append, Green.tokensIn_cons, Green.tokensAt_of_spread spread.symm]
      · rcases List.mem_append.mp hc with hc | hc
        · exact (node c (List.mem_append_left _ hc)).2
        · rcases List.mem_append.mp hc with hc | hc
          · exact inside c hc
          · exact (node c (List.mem_append_right _ (List.mem_cons_of_mem _ hc))).2

theorem wrapRemains_spec (problem : Problem)
    (built : ∀ s ∈ r.live, ∃ offset, Built task old offset s.entries)
    (unaided : task.language.scanner = none) (small : task.text.size ≤ Size.largest)
    (fits : Green.Fits task.text old) (recalls : task.language.Recalls task.text old) :
    (∀ t ∈ Green.tokensAt 0 (r.wrapRemains task problem).1,
      task.language.Reads task.text t ∧ (r.live = [] → t.2.hasError = true)) ∧
    ∀ c ∈ (r.wrapRemains task problem).1.children, c.Reaching := by
  have truthful : ∀ s ∈ r.live, Truthful task s.entries := fun s hs =>
    (built s hs).elim fun _ built => built_truthful founded unaided small fits recalls built
  have measured : ∀ c ∈ r.remains task, c.Measured := by
    intro c hc
    rcases mem_remains hc with ⟨s, hs, e, he, rfl⟩ | ⟨text, rfl⟩
    · obtain ⟨offset, built⟩ := built s hs
      exact (built_whole founded (fun root hroot => (fits root hroot).1) built e he).measured
    · exact Repair.measured_errorLeaf text
  refine ⟨fun t ht => reads_remains truthful t ?_,
    (Repair.reaching_errorNode (reaching_remains truthful)).of_mem⟩
  rwa [← Green.tokensAt_errorNode measured]

/-- Whichever way it ends, the tree of a parse tells of its text if the old tree does. -/
theorem tells_of_ending (unaided : task.language.scanner = none)
    (small : task.text.size ≤ Size.largest) (fits : Green.Fits task.text old)
    (recalls : task.language.Recalls task.text old) (ending : Ending task old root r) :
    task.language.Tells task.text root := by
  have measured := measured_of_ending founded (fun root hroot => (fits root hroot).1) ending
  have length := length_of_ending founded fits small ending
  cases ending with
  | @accepted s la _ ahead atEnd built accepts quiet =>
    have whole := built_whole founded (fun root hroot => (fits root hroot).1) built
    obtain ⟨reads, reaching⟩ :=
      accept_spec founded whole (built_truthful founded unaided small fits recalls built)
    refine ⟨measured, reads, reaching, Or.inl (length.mpr fun stranded => ?_)⟩
    obtain ⟨w, hw, incomplete⟩ := stranded.noted
    exact quiet w hw incomplete
  | @wrapped r problem built alive =>
    obtain ⟨reads, reaching⟩ :=
      wrapRemains_spec founded problem (fun s hs => ⟨_, built s hs⟩) unaided small fits recalls
    exact ⟨measured, fun t ht => (reads t ht).1, reaching,
      Or.inl (length.mpr fun stranded => alive stranded.lost)⟩
  | @stranded r entries lost built =>
    have nothing : ∀ s ∈ r.countRecovered.live, ∃ offset, Built task old offset s.entries :=
      fun s hs => absurd (show s ∈ [] from lost ▸ hs) List.not_mem_nil
    obtain ⟨reads, reaching⟩ := wrapRemains_spec founded .incomplete nothing unaided small fits
      recalls
    exact ⟨measured, fun t ht => (reads t ht).1, reaching, Or.inr fun t ht => (reads t ht).2 lost⟩

end Founded

end Run

namespace Parser

variable {G : Grammar} {p : Parser} {text : Text} {old : Option Tree}

/-- The tree of a parse tells of its text if the old tree does. -/
theorem tells_reparse (compiled : p.language.Compiled G) (unaided : p.language.scanner = none)
    (small : text.size ≤ Size.largest) (fits : Green.Fits text (p.oldRoot old))
    (recalls : p.language.Recalls text (p.oldRoot old)) (interrupts : Interrupts) :
    p.language.Tells text (p.parse text old interrupts).value.tree.root := by
  obtain ⟨g, a, -, founded⟩ := compiled.founded
  have ending := Run.ending_outcome (p.task text) interrupts (p.oldRoot old)
  rw [tree_parse]
  generalize Run.outcome (p.task text) interrupts (p.oldRoot old) = outcome at ending ⊢
  exact Run.tells_of_ending founded unaided small fits recalls ending

/-- The tree of a parse without an old tree tells of its text. -/
theorem tells_parse (compiled : p.language.Compiled G) (unaided : p.language.scanner = none)
    (small : text.size ≤ Size.largest) (interrupts : Interrupts) :
    p.language.Tells text (p.parse text none interrupts).value.tree.root :=
  have fits : Green.Fits text (p.oldRoot none) := fun root hroot =>
    absurd hroot (Option.not_mem_none root)
  tells_reparse compiled unaided small fits (p.language.recalls_none text) interrupts

end Parser

end Glr
