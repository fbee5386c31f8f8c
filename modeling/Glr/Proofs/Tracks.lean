import Glr.Proofs.Coverage
import Glr.Proofs.Paths
import Glr.Proofs.Reached

/-!
# No reduction fails

A reduction looks up its production, takes entries off the stack, and looks up where to go from the
state below them.  Each of the three can fail, and a stack on which one does is dropped.  On tables
that were compiled from a grammar none ever does (`reductions_succeed`).

The tables themselves say where a stack may be: `Tracked` reads every entry of it as a shift or a
goto of the state below.  That is so by the way stacks are built, whatever the tables are.  What
compiled tables add is that shifts and gotos are moves of the automaton.  Settling a conflict throws
actions away, but no move and no goto, so under the end of an item there are as many entries as the
dot has gone past, and the state below them has a goto for the left side.
-/

namespace Glr

/-- Every entry is a shift or a goto of the state below, or an extra that repeats it. -/
inductive Tracked (l : Language) : List StackEntry → Prop where
  | bottom : Tracked l []
  | extra {e : StackEntry} {es : List StackEntry} (below : Tracked l es) (extra : e.extra = true)
      (state : e.state = stateOver es) : Tracked l (e :: es)
  | move {e : StackEntry} {es : List StackEntry} (below : Tracked l es) (plain : e.extra = false)
      (enters : .shift e.state ∈ l.actions (stateOver es) e.node.symbol ∨
        l.goto? (stateOver es) e.node.symbol = some e.state) : Tracked l (e :: es)

namespace Tracked

variable {l : Language} {es es' taken below : List StackEntry}

theorem of_append : ∀ {taken : List StackEntry}, Tracked l (taken ++ below) → Tracked l below
  | [], tracked => tracked
  | _ :: _, .extra tracked _ _ => of_append tracked
  | _ :: _, .move tracked _ _ => of_append tracked

/-- Extras may stand on any stack, once they repeat its state. -/
theorem extras (tracked : Tracked l below) : ∀ {taken : List StackEntry},
    (∀ e ∈ taken, e.extra = true ∧ e.state = stateOver below) → Tracked l (taken ++ below)
  | [], _ => tracked
  | e :: taken, repeats => by
    have rest := extras tracked fun f hf => repeats f (List.mem_cons_of_mem e hf)
    obtain ⟨extra, state⟩ := repeats e List.mem_cons_self
    refine .extra rest extra (state.trans ?_)
    cases taken with
    | nil => rfl
    | cons f taken => exact (repeats f (by simp)).2.symm

theorem stateOver_extras : ∀ {taken : List StackEntry}, Tracked l (taken ++ below) →
    (∀ e ∈ taken, e.extra = true) → stateOver (taken ++ below) = stateOver below
  | [], _, _ => rfl
  | _ :: _, .extra tracked _ state, extras =>
    state.trans (stateOver_extras tracked fun f hf => extras f (List.mem_cons_of_mem _ hf))
  | e :: _, .move _ plain _, extras => by
    rw [extras e List.mem_cons_self] at plain
    cases plain

theorem skip {s : Stack} (tracked : Tracked l s.entries) (leaf : Green) (stop : Position)
    (cost : Nat) : Tracked l (Repair.skip s leaf stop cost).value.entries := by
  obtain ⟨taken, below, children, entries, -, result⟩ := Repair.skip_spec s leaf stop cost
  rw [entries] at tracked
  rw [result]
  exact .extra tracked.of_append rfl rfl

theorem reduces {id : ProductionId} (tracked : Tracked l es)
    (reduces : Stack.Reduces l id es es') : Tracked l es' := by
  cases reduces with
  | @intro trailing taken below p target lookahead fragile known plain counted top bottom
      goto =>
    have base : Tracked l below := tracked.of_append.of_append
    refine extras (.move base rfl (Or.inr ?_)) fun e he => ?_
    · rw [Green.symbol_node]
      exact goto
    · obtain ⟨f, hf, rfl⟩ := List.mem_map.mp he
      exact ⟨plain f hf, rfl⟩

end Tracked

section Built

variable {task : ParseTask} {old : Option Green} {r : Run} {la : Lookahead}
  {tokens : List Lookahead}

theorem tracked_of_built {offset : Nat} {entries : List StackEntry}
    (built : Built task old offset entries) : Tracked task.language entries := by
  induction built with
  | start => exact .bottom
  | reduce ahead built action reduced ih => exact ih.reduces (Stack.reduces_of_reduce? reduced)
  | extra r state fragile ahead built free ih => exact .extra ih rfl (Stack.state_eq _)
  | shift r state fragile ahead built action ih =>
    refine .move ih rfl (Or.inl ?_)
    rwa [(ahead.leaf_spec r state _).2.1, ← Stack.state_eq]
  | subtree ahead built fitting ih =>
    refine .move ih rfl (Or.inr ?_)
    rw [← Stack.state_eq]
    exact fitting.goto
  | missing ahead built action ih =>
    refine .move ih rfl (Or.inl ?_)
    rwa [← Stack.state_eq]
  | wrap built wrapped ih =>
    obtain ⟨taken, below, entries, -, result⟩ := Repair.wrap_spec wrapped
    rw [entries] at ih
    rw [result]
    exact .extra ih.of_append rfl rfl
  | skip r state cost ahead built notEnd ih => exact ih.skip _ _ cost
  | rest cost ahead built all ih => exact ih.skip _ _ cost

namespace Run

theorem workOn_from (ahead : Ahead task old la)
    (built : ∀ s ∈ r.live, Built task old la.start.offset s.entries) (steps : Nat) :
    (workOn task la r steps).1.From task la
      (fun s => Built task old la.start.offset s.entries) :=
  workOff_from (built_of_takes ahead) steps (.first built)

/-- Every stack that comes up in a parse follows the tables. -/
theorem tracked_of_meets {s : Stack} (reached : Reached task old tokens r)
    (met : r.Meets task s) : Tracked task.language s.entries := by
  obtain ⟨ahead, here, good⟩ := lookahead_spec reached.good
  have live : ∀ s ∈ (r.lookahead task).2.live,
      Built task old (r.lookahead task).1.start.offset s.entries := by
    intro s hs
    rw [here]
    exact good.built s hs
  induction met with
  | live mem => exact tracked_of_built (reached.good.built _ mem)
  | queued steps mem => exact tracked_of_built ((workOn_from ahead live steps).queue _ mem)
  | accepted steps mem =>
    exact tracked_of_built ((workOn_from ahead live steps).phase.sound.accepted _ mem).1
  | failed steps mem =>
    exact tracked_of_built ((workOn_from ahead live steps).phase.sound.failed _ mem)
  | shifting steps mem =>
    exact tracked_of_built ((workOn_from ahead live steps).phase.sound.shifts _ mem).1
  | branch met forks index ih =>
    rw [entries_branch]
    exact ih
  | driven met head reduced ih => exact ih.reduces (Stack.reduces_of_reduce? reduced)
  | pushed reduced mem =>
    have sound := (reduceAll_sound ahead live).1
    rw [reduced] at sound
    obtain ⟨⟨t, target⟩, ht, rfl⟩ := List.mem_map.mp mem
    obtain ⟨built, action⟩ := sound.shifts _ ht
    exact tracked_of_built (.shift _ _ _ ahead built action)

end Run

end Built

section Founded

variable {g : FlatGrammar} {a : Automaton} {l : Language} (founded : l.Founded g a)

include founded

/-- On compiled tables an entry is a move of the automaton. -/
theorem Tracked.laid {es : List StackEntry} (tracked : Tracked l es) : Laid a es := by
  induction tracked with
  | bottom => exact .bottom
  | extra below extra state ih => exact .extra ih extra state
  | move below plain enters ih =>
    rcases enters with action | goto
    · obtain ⟨state, found, moves⟩ := founded.tab.shift_sound action
      exact .move ih plain found moves
    · obtain ⟨state, found, moves⟩ := founded.goto_sound goto
      exact .move ih plain found moves

omit founded in
/-- Below an item there are as many entries as its dot is behind the front, and under them the
production starts. -/
theorem Laid.takeNodes_isSome (co : a.Coherent g) {p : ProductionId} {es : List StackEntry}
    (laid : Laid a es) :
    ∀ {n : Nat} (nodes : List Green) {state : LrState}, a.states[stateOver es]? = some state →
      (⟨p, n⟩ : Item) ∈ state.items →
      ∃ children below from', Stack.takeNodes nodes n es = some (children, below) ∧
        a.states[stateOver below]? = some from' ∧ Item.start p ∈ from'.items := by
  induction laid with
  | bottom =>
    intro n nodes state found mem
    obtain rfl : n = 0 := co.dot_eq_zero found mem
    exact ⟨nodes, [], state, rfl, found, mem⟩
  | @extra e es below extra repeats ih =>
    intro n nodes state found mem
    cases n with
    | zero => exact ⟨nodes, e :: es, state, rfl, found, mem⟩
    | succ n =>
      rw [stateOver, repeats] at found
      rw [Stack.takeNodes, if_pos extra]
      exact ih (e.node :: nodes) found mem
  | @move e es from' below plain before moves ih =>
    intro n nodes state found mem
    cases n with
    | zero => exact ⟨nodes, e :: es, state, rfl, found, mem⟩
    | succ n =>
      rw [Stack.takeNodes, if_neg (by simp [plain])]
      exact ih (e.node :: nodes) before (co.retreat before moves found mem).1

/-- Where the tables call for a reduction of a stack that follows them, it can be made. -/
theorem Tracked.reduce?_isSome {s : Stack} (tracked : Tracked l s.entries) {t : Symbol}
    {id : ProductionId} (action : .reduce id ∈ l.actions s.state t) (la : Lookahead)
    (fragile : Bool) : ∃ c, s.reduce? l id la fragile = some c := by
  have co := Automaton.coherent_ofGrammar founded.tab.automaton
  obtain ⟨state, production, found, hp, mem⟩ := founded.tab.reduce_sound action
  have laid := tracked.laid founded
  -- The extras on top stay where they are, and the state below them is the same.
  rw [Stack.state_eq, ← List.takeWhile_append_dropWhile (p := (·.extra)) (l := s.entries)] at found
  rw [← List.takeWhile_append_dropWhile (p := (·.extra)) (l := s.entries)] at laid
  rw [laid.stateOver_extras fun e he => List.all_eq_true.mp List.all_takeWhile e he] at found
  obtain ⟨children, below, from', takes, here, start⟩ :=
    laid.of_append.takeNodes_isSome co [] found mem
  obtain ⟨target, moves⟩ := co.goto founded.wf here hp start
  have nonterminal := founded.wf.lhs_nonterminal production (Array.mem_of_getElem? hp)
  have goto : l.goto? (stateOver below) production.lhs = some target := by
    rw [← moves]
    exact founded.tab.goto here nonterminal
  have known := founded.tab.production hp
  have uncovered : Stack.state { s with entries := below } = stateOver below := Stack.state_eq _
  rw [Stack.reduce?]
  exact ⟨_, Option.bind_eq_some_iff.mpr ⟨_, known, Option.bind_eq_some_iff.mpr ⟨_, takes,
    Option.bind_eq_some_iff.mpr ⟨target, uncovered.symm ▸ goto, rfl⟩⟩⟩⟩

end Founded

namespace Parser

variable {G : Grammar} {p : Parser} {tokens : List Lookahead} {r : Run} {s : Stack}

/-- Every stack that comes up in a parse is a path of the automaton along shifts and gotos of the
tables, and every reduction that its state calls for on some terminal can be made. -/
theorem reductions_succeed (compiled : p.language.Compiled G) (text : Text)
    (oldTree : Option Tree) (reached : Run.Reached (p.task text) (p.oldRoot oldTree) tokens r)
    (met : r.Meets (p.task text) s) :
    Tracked p.language s.entries ∧
      (∃ g a, G.lower = .ok g ∧ Automaton.ofGrammar g = .ok a ∧ Laid a s.entries) ∧
      ∀ (t : Symbol) (id : ProductionId), .reduce id ∈ p.language.actions s.state t →
        ∀ (now : Run) (la : Lookahead) (fragile : Bool),
          (now.reduce p.language s id la fragile).1.isSome = true := by
  obtain ⟨g, a, lowered, founded⟩ := compiled.founded
  have tracked : Tracked p.language s.entries := Run.tracked_of_meets reached met
  refine ⟨tracked, ⟨g, a, lowered, founded.tab.automaton, tracked.laid founded⟩, ?_⟩
  intro t id action now la fragile
  obtain ⟨c, reduced⟩ := tracked.reduce?_isSome founded action la fragile
  rw [Run.reduce, reduced]
  rfl

/-- Behind an `a` the empty text is reduced before a `b`. -/
theorem nested_reductions_succeed :
    let p : Parser := ⟨FlatGrammar.nestedLanguage, {}⟩
    let r := ((Run.initial none).turn (p.task nestedText)).run
    ∃ s ∈ r.live, .reduce 0 ∈ p.language.actions s.state 3 ∧
      ∀ la fragile, (r.reduce p.language s 0 la fragile).1.isSome = true := by
  intro p r
  have more : (Run.initial none).turn (p.task nestedText) = .more r :=
    Flow.eq_more (by decide +kernel)
  have reached : Run.Reached (p.task nestedText) (p.oldRoot none) _ r := .turn .initial more
  obtain ⟨s, hs⟩ := List.exists_mem_of_ne_nil r.live (by decide +kernel)
  have calls : ∀ s ∈ r.live, .reduce 0 ∈ p.language.actions s.state 3 := by decide +kernel
  obtain ⟨-, -, succeed⟩ := reductions_succeed FlatGrammar.nestedLanguage_compiled nestedText none
    reached (.live hs)
  exact ⟨s, hs, calls s hs, succeed 3 0 (calls s hs) r⟩

end Parser

end Glr
