import Glr.Proofs.Courses
import Glr.Proofs.Frontier
import Glr.Proofs.Roots
import Glr.Proofs.Tracks

/-!
# Stacks as runs

A stack is a run that the machine could have made: the states of its moves are the stack of the
machine, the derivations under its nodes what the machine has built, and what it is ranked by is the
rank of the run (`Stack.course`).  A reduction of the stack is then a step of the machine
(`weighs_of_takes`).

The other way round not every run has a stack of its own, since stacks that went through the same
states are merged.  It has one that covers it: with its states, and ranked no later.  The machine
goes on from its states alone, and what a step adds to the rank is the same for both, so what covers
a run before a step covers it after the step as well (`Covers.takes`, `Covers.shifts`).
-/

namespace Glr

variable {g : FlatGrammar} {a : Automaton}

/-! ## The moves of a stack -/

/-- The states of the moves and the first state, the latest first. -/
def statesOf (es : List StackEntry) : List StateId := (es.filter (!·.extra)).map (·.state) ++ [0]

/-- The derivations of the moves, the latest first. -/
def treesOf (es : List StackEntry) : List Skeleton :=
  (es.filter (!·.extra)).map (·.node.skeleton)

section Moves

variable {e : StackEntry} {es taken below : List StackEntry}

theorem filter_extras (extras : ∀ e ∈ taken, e.extra = true) : taken.filter (!·.extra) = [] :=
  List.filter_eq_nil_iff.mpr fun e he => by simp [extras e he]

theorem statesOf_append_extras (extras : ∀ e ∈ taken, e.extra = true) :
    statesOf (taken ++ below) = statesOf below := by
  rw [statesOf, List.filter_append, filter_extras extras, List.nil_append]
  rfl

theorem treesOf_append_extras (extras : ∀ e ∈ taken, e.extra = true) :
    treesOf (taken ++ below) = treesOf below := by
  rw [treesOf, List.filter_append, filter_extras extras, List.nil_append]
  rfl

theorem statesOf_extra (extra : e.extra = true) : statesOf (e :: es) = statesOf es := by
  rw [statesOf, List.filter_cons_of_neg (by simp [extra])]
  rfl

theorem treesOf_extra (extra : e.extra = true) : treesOf (e :: es) = treesOf es := by
  rw [treesOf, List.filter_cons_of_neg (by simp [extra])]
  rfl

theorem statesOf_move (plain : e.extra = false) : statesOf (e :: es) = e.state :: statesOf es := by
  rw [statesOf, List.filter_cons_of_pos (by simp [plain])]
  rfl

theorem treesOf_move (plain : e.extra = false) :
    treesOf (e :: es) = e.node.skeleton :: treesOf es := by
  rw [treesOf, List.filter_cons_of_pos (by simp [plain])]
  rfl

theorem Laid.statesOf_eq (laid : Laid a es) : ∃ stack, statesOf es = stateOver es :: stack := by
  induction laid with
  | bottom => exact ⟨[], rfl⟩
  | @extra e es below extra state ih =>
    obtain ⟨stack, same⟩ := ih
    refine ⟨stack, ?_⟩
    rw [stateOver, state, ← same, statesOf_extra extra]
  | move below plain found moves ih => exact ⟨_, statesOf_move plain⟩

theorem statesOf_eq_of_trace {s t : Stack} (same : s.trace = t.trace) :
    statesOf s.entries = statesOf t.entries := by
  have shown : ∀ es : List StackEntry, statesOf es =
      ((es.map fun e => (e.state, e.extra)).filter (!·.2)).map (·.1) ++ [0] := by
    intro es
    rw [statesOf, List.filter_map, List.map_map]
    rfl
  rw [shown, shown]
  exact congrArg (fun trace => ((trace.filter (!·.2)).map (·.1)) ++ [0]) same

end Moves

namespace Green

theorem skeletons_append (cs ds : List Green) :
    skeletons (cs ++ ds) = skeletons cs ++ skeletons ds := by
  induction cs with
  | nil => rw [List.nil_append, skeletons, List.nil_append]
  | cons c cs ih =>
    rw [List.cons_append, skeletons, skeletons, ih]
    split
    · rfl
    · rfl

theorem skeletons_fillers {cs : List Green} (fillers : ∀ c ∈ cs, c.isFiller = true) :
    skeletons cs = [] := by
  induction cs with
  | nil => rw [skeletons]
  | cons c cs ih =>
    rw [skeletons_filler (fillers c List.mem_cons_self),
      ih fun d hd => fillers d (List.mem_cons_of_mem c hd)]

end Green

/-- Without the fillers, the derivations of the nodes of entries are those of the moves. -/
theorem skeletons_nodesOf {es : List StackEntry} (sprouted : ∀ e ∈ es, e.Sprouted g) :
    Green.skeletons (nodesOf es) = (treesOf es).reverse := by
  induction es with
  | nil => rw [nodesOf_nil, Green.skeletons]; rfl
  | cons e es ih =>
    have rest := ih fun f hf => sprouted f (List.mem_cons_of_mem e hf)
    have here := (sprouted e List.mem_cons_self).filler
    rw [nodesOf_cons, Green.skeletons_append, rest]
    cases extra : e.extra with
    | true =>
      rw [Green.skeletons_filler (here.trans extra), Green.skeletons, List.append_nil,
        treesOf_extra extra]
    | false =>
      rw [Green.skeletons_plain (here.trans extra), Green.skeletons, treesOf_move extra,
        List.reverse_cons]

/-! ## A stack is a run -/

/-- The run that a stack stands for, before some text. -/
def Stack.course (s : Stack) (rest : List Symbol) : Course :=
  ⟨⟨statesOf s.entries, treesOf s.entries, rest⟩, s.dynamicPrecedence, s.preference⟩

theorem Stack.rank_of_reduce? {l : Language} {s : Stack} {id : ProductionId} {la : Lookahead}
    {fragile : Bool} {c : Checked Stack} (h : s.reduce? l id la fragile = some c) :
    c.value.errorCost = s.errorCost ∧ c.value.preference = s.preference ∧
      ∃ p, l.production? id = some p ∧
        c.value.dynamicPrecedence = s.dynamicPrecedence + p.dynamicPrecedence := by
  rw [reduce?] at h
  obtain ⟨p, known, h⟩ := Option.bind_eq_some_iff.mp h
  obtain ⟨⟨children, below⟩, -, h⟩ := Option.bind_eq_some_iff.mp h
  obtain ⟨target, -, h⟩ := Option.bind_eq_some_iff.mp h
  cases h
  exact ⟨rfl, rfl, p, known, rfl⟩

/-- A reduction takes the states and the derivations of its right side, and puts a goto and a node
in their place. -/
theorem Stack.course_of_reduce? {l : Language} {s : Stack} {id : ProductionId} {la : Lookahead}
    {fragile : Bool} {c : Checked Stack} (sprouting : Sprouting g a s.entries)
    (h : s.reduce? l id la fragile = some c) :
    ∃ p k stack target, l.production? id = some p ∧
      (statesOf s.entries).drop p.length = k :: stack ∧ l.goto? k p.lhs = some target ∧
      ∀ rest, c.value.course rest = ⟨⟨target :: k :: stack,
          .node id ((treesOf s.entries).take p.length).reverse ::
            (treesOf s.entries).drop p.length, rest⟩,
          s.dynamicPrecedence + p.dynamicPrecedence, s.preference⟩ := by
  obtain ⟨-, preference, p, known, precedence⟩ := rank_of_reduce? h
  have reduces := reduces_of_reduce? h
  have course : ∀ rest, c.value.course rest = ⟨⟨statesOf c.value.entries, treesOf c.value.entries,
      rest⟩, s.dynamicPrecedence + p.dynamicPrecedence, s.preference⟩ := by
    intro rest
    rw [course, precedence, preference]
  generalize c.value.entries = after at reduces course
  generalize s.entries = before at sprouting reduces course ⊢
  cases reduces with
  | @intro trailing taken below p' target lookahead fragile known' extras counted top bottom
      goto =>
    obtain rfl := Option.some.inj (known'.symm.trans known)
    have base := sprouting.of_append
    obtain ⟨stack, under⟩ := base.laid.of_append.statesOf_eq
    have states : statesOf (taken ++ below) = (taken.filter (!·.extra)).map (·.state) ++
        (stateOver below :: stack) := by
      rw [← under, statesOf, List.filter_append, List.map_append, List.append_assoc]
      rfl
    have trees : treesOf (taken ++ below) = treesOf taken ++ treesOf below := by
      rw [treesOf, List.filter_append, List.map_append]
      rfl
    have restated : ∀ e ∈ trailing.map (fun e => { e with state := target }), e.extra = true := by
      intro e he
      obtain ⟨f, hf, rfl⟩ := List.mem_map.mp he
      exact extras f hf
    have node := skeletons_nodesOf fun e he => base.sprouted e (List.mem_append_left _ he)
    refine ⟨p', stateOver below, stack, target, known, ?_, goto, fun rest => ?_⟩
    · rw [statesOf_append_extras extras, states]
      exact List.drop_left' (by rw [List.length_map, counted])
    · have length : (treesOf taken).length = p'.length := by rw [treesOf, List.length_map, counted]
      rw [course, statesOf_append_extras restated, treesOf_append_extras restated,
        treesOf_append_extras extras, statesOf_move rfl, treesOf_move rfl, under, trees,
        List.take_left' length, List.drop_left' length]
      dsimp only
      rw [Green.skeleton_of_production (Green.production_node _ _), Green.children_node, node]

section Token

variable {task : ParseTask} {la : Lookahead} {ambiguous : Bool} {s s' b : Stack}

/-- What a branch takes is counted. -/
theorem rank_branch (task : ParseTask) (la : Lookahead) (s : Stack) (index : Nat) :
    let b := Run.branch s ((task.language.actions s.state la.token.symbol).length > 1) index
    b.dynamicPrecedence = s.dynamicPrecedence ∧ b.preference =
      s.preference + task.language.tables.detour s.state la.token.symbol index ∧
      b.errorCost = s.errorCost := by
  by_cases several : (task.language.tables.actions s.state la.token.symbol).length > 1
  · rw [Tables.detour, if_pos several]
    have several : (task.language.actions s.state la.token.symbol).length > 1 := several
    rw [decide_eq_true several]
    exact ⟨rfl, rfl, rfl⟩
  · rw [Tables.detour, if_neg several]
    have single : ¬ (task.language.actions s.state la.token.symbol).length > 1 := several
    rw [decide_eq_false single]
    exact ⟨rfl, rfl, rfl⟩

theorem Laid.statesOf_state (laid : Laid a s.entries) :
    ∃ stack, statesOf s.entries = s.state :: stack := by
  rw [Stack.state_eq]
  exact laid.statesOf_eq

theorem errorCost_of_takes (takes : Run.Takes task la ambiguous s s') :
    s'.errorCost = s.errorCost := by
  obtain ⟨id, b, c, ⟨index, -, rfl⟩, reduced, rfl⟩ := takes
  exact (Stack.rank_of_reduce? reduced).1.trans (rank_branch task la s index).2.2

/-- A reduction on the token ahead is a step of the machine. -/
theorem weighs_of_takes (sprouting : Sprouting g a s.entries)
    (takes : Run.Takes task la ambiguous s s') {rest : List Symbol}
    (here : rest.headD Symbol.endOfText = la.token.symbol) :
    task.language.tables.Weighs (s.course rest) (s'.course rest) := by
  obtain ⟨id, b, c, ⟨index, found, rfl⟩, reduced, rfl⟩ := takes
  obtain ⟨gain, detours, -⟩ := rank_branch task la s index
  obtain ⟨under, states⟩ := sprouting.laid.statesOf_state
  rw [← Run.entries_branch] at sprouting
  obtain ⟨p, k, stack, target, known, uncovered, goto, course⟩ :=
    Stack.course_of_reduce? sprouting reduced
  rw [Run.entries_branch, states] at uncovered
  rw [← here] at found
  rw [course, Stack.course, Run.entries_branch, gain, detours, ← here, states]
  exact .reduce found known uncovered goto

/-- The shift of the token ahead is a step of the machine. -/
theorem weighs_of_shift (laid : Laid a s.entries) {next : StateId}
    (branches : Run.Branches task la s (.shift next) b) {e : StackEntry}
    (plain : e.extra = false) (state : e.state = next)
    (leaf : e.node.skeleton = .token la.token.symbol) (rest : List Symbol) :
    task.language.tables.Weighs (s.course (la.token.symbol :: rest)) ((b.push e).course rest) := by
  obtain ⟨index, found, rfl⟩ := branches
  obtain ⟨gain, detours, -⟩ := rank_branch task la s index
  obtain ⟨under, states⟩ := laid.statesOf_state
  rw [Stack.course, Stack.course, Stack.push, statesOf_move plain, treesOf_move plain,
    Run.entries_branch, state, leaf, gain, detours, states]
  exact .shift found

/-- The root of a stack that accepts is the one derivation on it. -/
theorem skeleton_accept (founded : task.language.Founded g a)
    (sprouting : Sprouting g a s.entries) {t : Symbol}
    (accepts : .accept ∈ task.language.actions s.state t) :
    treesOf s.entries = [(Run.accept task.language s).value.skeleton] := by
  rw [Stack.state_eq] at accepts
  obtain ⟨before, main, after, entries, extras, plain, start⟩ :=
    exists_of_symbolsOf (sprouting.laid.symbols_of_accept founded accepts).1
  have known : ∀ e ∈ before ++ main :: after, e.Sprouted g := fun e he =>
    sprouting.sprouted e (List.mem_reverse.mp (entries ▸ he))
  have here := known main (List.mem_append_right _ List.mem_cons_self)
  have trees : treesOf s.entries = [main.node.skeleton] := by
    have first := filter_extras fun e he => extras e (List.mem_append_left _ he)
    have last := filter_extras fun e he => extras e (List.mem_append_right _ he)
    rw [treesOf, ← List.reverse_reverse s.entries, entries, List.filter_reverse,
      List.filter_append, first, List.filter_cons_of_pos (by simp [plain]), last]
    rfl
  rw [trees]
  rw [← founded.startSymbol_eq] at start
  rcases Run.accept_of_single task.language entries extras plain start with ⟨-, root⟩ | root
  · rw [root]
  · obtain ⟨id, production⟩ : ∃ id, main.node.production = some id := by
      cases production : main.node.production with
      | some id => exact ⟨id, rfl⟩
      | none =>
        have terminal := here.token plain production
        rw [start, founded.startSymbol_eq, founded.wf.start_nonterminal] at terminal
        cases terminal
    -- The extras around it become children of the root, and are no part of its derivation.
    have fillers : ∀ es : List StackEntry, (∀ e ∈ es, e ∈ before ++ after) →
        Green.skeletons (es.map (·.node)) = [] := by
      refine fun es inside => Green.skeletons_fillers fun c hc => ?_
      obtain ⟨e, he, rfl⟩ := List.mem_map.mp hc
      have extra := inside e he
      refine (known e ?_).filler.trans (extras e extra)
      exact (List.mem_append.mp extra).elim (List.mem_append_left _)
        fun h => List.mem_append_right _ (List.mem_cons_of_mem main h)
    rw [root, Green.skeleton_of_production production, Green.skeleton_of_production
      ((Green.production_withChildren _ _ _).trans production), Green.children_withChildren,
      Green.skeletons_append, Green.skeletons_append,
      fillers before fun e he => List.mem_append_left _ he,
      fillers after fun e he => List.mem_append_right _ he, List.nil_append, List.append_nil]

/-! ## Every run is covered -/

/-- A stack went through the states of a run and is ranked no later. -/
structure Stack.Covers (s : Stack) (c : Course) : Prop where
  same : statesOf s.entries = c.stack
  rank : c.gain < s.dynamicPrecedence ∨ c.gain = s.dynamicPrecedence ∧ s.preference ≤ c.detours

namespace Stack.Covers

variable {c d : Course}

theorem of_replaces {t : Stack} (covers : s.Covers c) (replaces : t.Replaces s)
    (errors : t.errorCost = s.errorCost) : t.Covers c := by
  refine ⟨(statesOf_eq_of_trace replaces.same).trans covers.same, ?_⟩
  have unbeaten := replaces.unbeaten
  have rank := covers.rank
  rw [beats_false_iff] at unbeaten
  omega

/-- What the machine reads off the top of its stack is the state of the stack. -/
theorem state_eq (covers : s.Covers c) (laid : Laid a s.entries) {i : StateId}
    {stack : List StateId} (top : c.stack = i :: stack) : s.state = i := by
  obtain ⟨under, states⟩ := laid.statesOf_state
  have same := (states.symm.trans covers.same).trans top
  exact (List.cons.inj same).1

/-- There is a branch for the action that a run takes. -/
theorem branches (covers : s.Covers c) (laid : Laid a s.entries) {i : StateId}
    {stack : List StateId} (top : c.stack = i :: stack) {action : Action} {index : Nat}
    (found : (task.language.tables.actions i la.token.symbol)[index]? = some action) :
    ∃ b, Run.Branches task la s action b ∧ b.Covers
      { c with detours := c.detours + task.language.tables.detour i la.token.symbol index } := by
  obtain rfl := covers.state_eq laid top
  obtain ⟨gain, detours, -⟩ := rank_branch task la s index
  refine ⟨_, ⟨index, found, rfl⟩, ?_, ?_⟩
  · rw [Run.entries_branch]
    exact covers.same
  · rw [gain, detours]
    exact covers.rank.imp id (And.imp id (Nat.add_le_add_right · _))

theorem shifts (covers : s.Covers c) (laid : Laid a s.entries)
    (step : task.language.tables.Weighs c d) (taken : c.rest = la.token.symbol :: d.rest) :
    ∃ next b, Run.Branches task la s (.shift next) b ∧ ∀ e : StackEntry, e.extra = false →
      e.state = next → (b.push e).Covers d := by
  cases step with
  | @shift i j stack trees t rest gain detours index action =>
    obtain rfl : t = la.token.symbol := (List.cons.inj taken).1
    obtain ⟨b, branches, same, rank⟩ := covers.branches laid rfl action
    refine ⟨j, b, branches, fun e plain state => ⟨?_, rank⟩⟩
    rw [Stack.push, statesOf_move plain, same, state]
  | reduce action found uncovered goto => exact absurd taken (List.cons_ne_self _ _).symm

variable {old : Option Green} (founded : task.language.Founded g a)
  (rooted : ∀ root ∈ old, root.Rooted g) (ahead : Ahead task old la)

include founded rooted

theorem takes (covers : s.Covers c) (built : Built task old la.start.offset s.entries)
    (folds : task.language.tables.Folds c d)
    (here : c.rest.headD Symbol.endOfText = la.token.symbol) :
    ∃ s', Run.Takes task la ambiguous s s' ∧ s'.Covers d := by
  obtain ⟨step, stays⟩ := folds
  cases step with
  | shift action => exact absurd stays (List.cons_ne_self _ _).symm
  | @reduce i j k stack below trees rest gain detours index p production action found uncovered
      goto =>
    dsimp only at here
    rw [here] at action ⊢
    have sprouting := built_sprouting founded rooted built
    obtain ⟨b, branches, same, rank⟩ := covers.branches sprouting.laid rfl action
    rw [← branches.entries] at built sprouting
    obtain ⟨c, reduced⟩ := (tracked_of_built built).reduce?_isSome founded branches.mem la
      (ambiguous || b.forked)
    obtain ⟨p', k', stack', target, known, uncovered', goto', course⟩ :=
      Stack.course_of_reduce? sprouting reduced
    obtain rfl := Option.some.inj (known.symm.trans found)
    -- Both have the same states, so the production uncovers the same one and goes on to the same.
    rw [same] at uncovered'
    obtain ⟨rfl, rfl⟩ := List.cons.inj (uncovered'.symm.trans uncovered)
    obtain rfl := Option.some.inj (goto'.symm.trans goto)
    obtain ⟨reading, precedence, preference⟩ := Course.mk.inj (course [])
    refine ⟨c.value, ⟨p, b, c, branches, reduced, rfl⟩, (Reading.mk.inj reading).1, ?_⟩
    rw [precedence, preference]
    exact rank.imp (Int.add_lt_add_right · _) (And.imp (congrArg (· + _)) id)

include ahead

/-- All that a run does on the token ahead is done on the stack. -/
theorem takes_all (covers : s.Covers c) (built : Built task old la.start.offset s.entries)
    (folds : Relation.ReflTransGen task.language.tables.Folds c d)
    (here : c.rest.headD Symbol.endOfText = la.token.symbol) :
    ∃ s', Relation.ReflTransGen (Run.Takes task la ambiguous) s s' ∧
      Built task old la.start.offset s'.entries ∧ s'.Covers d := by
  induction folds with
  | refl => exact ⟨s, .refl, built, covers⟩
  | @tail d e folds step ih =>
    obtain ⟨s', steps, built', covers'⟩ := ih
    rw [← Tables.Folds.rest_eq folds] at here
    obtain ⟨s'', takes, covers''⟩ := takes founded rooted covers' built' step here
    exact ⟨s'', steps.tail takes, Run.built_of_takes ahead built' takes, covers''⟩

end Stack.Covers

end Token

end Glr
