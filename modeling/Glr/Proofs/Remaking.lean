import Glr.Proofs.Leading
import Glr.Proofs.Stacked
import Glr.Proofs.Vouching

/-!
# Parses that make trees again

Where trees can be made again from a text, a parse without an old tree that comes to their place
with one stack does make them, if nothing cancels it and no limit cuts it short.  It may not have
made all reductions by the time that it is behind them: those that end the last tree wait for the
token behind.  So what is said of its stack is where that leads to, given one of the symbols that
may be behind (`Run.Poised`), and each step of `Retraces` takes it to where the next starts: a token
or an extra by a turn of the parse, a node by one more reduction to come (`Retraces.remakes`).
-/

namespace Glr

open Green Stack

namespace Run

variable {task : ParseTask} {old : Option Green} {r r' r'' : Run} {la : Lookahead} {s s' : Stack}
  {fuel fuel' fuel'' : Nat}

/-! ## Parses that nothing cancels -/

theorem loop_more (more : r.turn task = .more r') (turns : Nat) :
    loop task .never (fuel + 1) turns r = loop task .never fuel (turns + 1) r' := by
  rw [loop.eq_def]
  dsimp only
  rw [more]
  rfl

theorem loop_done {root : Green} (done : r.turn task = .done root r') (turns : Nat) :
    loop task .never (fuel + 1) turns r = ⟨root, r', false⟩ := by
  rw [loop.eq_def]
  dsimp only
  rw [done]
  rfl

/-- What a parse that nothing cancels comes to in a number of turns. -/
def ending (task : ParseTask) (fuel : Nat) (r : Run) : Outcome := loop task .never fuel 0 r

/-- It makes no difference how many turns were taken before. -/
theorem loop_never : ∀ (fuel turns : Nat) (r : Run), loop task .never fuel turns r =
    ending task fuel r := by
  intro fuel
  induction fuel with
  | zero => exact fun _ _ => rfl
  | succ fuel ih =>
    intro turns r
    cases turn : r.turn task with
    | done root r' => rw [ending, loop_done turn, loop_done turn]
    | more r' => rw [ending, loop_more turn, loop_more turn, ih, ih]

theorem ending_more (more : r.turn task = .more r') :
    ending task (fuel + 1) r = ending task fuel r' :=
  (loop_more more 0).trans (loop_never fuel _ r')

theorem ending_done {root : Green} (done : r.turn task = .done root r') :
    ending task (fuel + 1) r = ⟨root, r', false⟩ := loop_done done 0

theorem tells_ending : ∀ (fuel : Nat) (r : Run), Tells r (ending task fuel r).run := by
  intro fuel
  induction fuel with
  | zero =>
    intro r
    have noted : Tells (r.report (.steps (task.config.stepBudget task.text.size)))
        ((r.report (.steps (task.config.stepBudget task.text.size))).noting (Checked.demand
          (task.config.stepBudget task.text.size < ParserConfig.largestCount))) :=
      .of_same rfl rfl
    exact .trans (.report r _) (noted.trans (tells_abandon task _))
  | succ fuel ih =>
    intro r
    have turned := tells_turn task r
    cases turn : r.turn task with
    | done root r' =>
      rw [turn] at turned
      rw [ending_done turn]
      exact turned
    | more r' =>
      rw [turn] at turned
      rw [ending_more turn]
      exact turned.trans (ih r')

/-- A parse to which enough reductions and turns were allowed. -/
structure Ample (task : ParseTask) (outcome : Outcome) : Prop where
  thrifty : outcome.run.Untold (.reductions task.config.maxReductionsPerToken)
  brief : outcome.run.Untold (.steps (task.config.stepBudget task.text.size))

/-- A state of a parse without an old tree, to which enough will have been allowed in the end. -/
structure Unhindered (task : ParseTask) (fuel : Nat) (r : Run) : Prop where
  reached : ∃ tokens, Reached task none tokens r
  ample : Ample task (ending task fuel r)

namespace Unhindered

variable (free : Unhindered task fuel r)

include free

theorem candid : r.Candid :=
  let ⟨_, reached⟩ := free.reached
  reached.candid

theorem good : r.Good task none :=
  let ⟨_, reached⟩ := free.reached
  reached.good

theorem lookahead : (r.lookahead task).1 = lexed task r.live r.position :=
  lookahead_fresh free.good.inside

/-- There is a turn left. -/
theorem exists_fuel : ∃ fuel', fuel = fuel' + 1 := by
  cases fuel with
  | zero =>
    exact absurd ((tells_abandon task _).untold free.ample.brief)
      (free.candid.not_untold_report _)
  | succ fuel => exact ⟨fuel, rfl⟩

theorem turn (more : r.turn task = .more r') :
    ∃ fuel', fuel = fuel' + 1 ∧ ending task fuel r = ending task fuel' r' ∧
      Unhindered task fuel' r' := by
  obtain ⟨tokens, reached⟩ := free.reached
  obtain ⟨fuel', rfl⟩ := free.exists_fuel
  have same : ending task (fuel' + 1) r = ending task fuel' r' := ending_more more
  exact ⟨fuel', rfl, same, ⟨_, reached.turn more⟩, same ▸ free.ample⟩

/-- Enough reductions are left for the token ahead. -/
theorem enough (right : (lexed task r.live r.position).token.isError = false)
    (needed : (r.lookahead task).2.isPlainExtra task.language (lexed task r.live r.position) =
      false) :
    ((r.lookahead task).2.reduceAll task
      (lexed task r.live r.position)).2.reported.reductions = false := by
  obtain ⟨fuel', rfl⟩ := free.exists_fuel
  have here := free.lookahead
  rw [← here] at right needed ⊢
  have candid := (tells_reduceAll task (r.lookahead task).1 (r.lookahead task).2).candid
    ((tells_lookahead task r).candid free.candid)
  have later : Tells (r.turn task).run (ending task (fuel' + 1) r).run := by
    cases turn : r.turn task with
    | done root r' =>
      rw [ending_done turn]
      exact .refl r'
    | more r' =>
      rw [ending_more turn]
      exact tells_ending fuel' r'
  exact candid.unreported
    (((tells_reduced right needed).trans later).untold free.ample.thrifty)

end Unhindered

/-! ## Making trees -/

/-- A parse that stands at a place with one stack.  Given one of some symbols behind, the stack
leads to another, and that is where the automaton is said to be. -/
structure Poised (task : ParseTask) (P : Symbol → Prop) (f : Front) (x : Nat) (base : Stack)
    (r : Run) (s : Stack) : Prop where
  single : r.live = [s]
  unforked : s.forked = false
  place : r.position.offset = x
  leads : ∀ t, P t → Leads task.language t s.gist base
  own : base.gist = base
  closed : base.state = f.closed
  opened : f.opened = some s.state
  trailing : isTrailing base.entries = f.trailing

/-- A parse makes trees on its way from one state to another. -/
structure Makes (task : ParseTask) (gs : List Green) (fuel : Nat) (r : Run) (fuel' : Nat)
    (r' : Run) : Prop where
  ending : ending task fuel r = ending task fuel' r'
  free : Unhindered task fuel' r'
  fewer : fuel' ≤ fuel
  spent : (firstIn? gs).isSome = true → fuel' < fuel
  position : r'.position = r.position.behind gs
  recovery : r'.recovery =
    if (firstIn? gs).isSome then { r.recovery with skipped := 0 } else r.recovery
  ambiguousFor : r'.ambiguousFor = if (firstIn? gs).isSome then 0 else r.ambiguousFor

namespace Makes

theorem nil (free : Unhindered task fuel r) : Makes task [] fuel r fuel r where
  ending := rfl
  free := free
  fewer := Nat.le_refl fuel
  spent some := by
    rw [firstIn?_nil] at some
    cases some
  position := r.position.behind_nil.symm
  recovery := by rw [firstIn?_nil, Option.isSome_none, if_neg Bool.false_ne_true]
  ambiguousFor := by rw [firstIn?_nil, Option.isSome_none, if_neg Bool.false_ne_true]

theorem append {gs hs : List Green} (h : Makes task gs fuel r fuel' r')
    (h' : Makes task hs fuel' r' fuel'' r'') : Makes task (gs ++ hs) fuel r fuel'' r'' where
  ending := h.ending.trans h'.ending
  free := h'.free
  fewer := Nat.le_trans h'.fewer h.fewer
  spent some := by
    rw [firstIn?_append, Option.isSome_or, Bool.or_eq_true] at some
    have := h.fewer
    have := h'.fewer
    rcases some with some | some
    · have := h.spent some
      omega
    · have := h'.spent some
      omega
  position := by rw [h'.position, h.position, Position.behind_append]
  recovery := by
    rw [h'.recovery, h.recovery, firstIn?_append, Option.isSome_or]
    cases (firstIn? gs).isSome <;> cases (firstIn? hs).isSome <;> rfl
  ambiguousFor := by
    rw [h'.ambiguousFor, h.ambiguousFor, firstIn?_append, Option.isSome_or]
    cases (firstIn? gs).isSome <;> cases (firstIn? hs).isSome <;> rfl

/-- Who makes the children of a node has made the node, but for its reduction. -/
theorem node {g : Green} {id : ProductionId} (h : Makes task g.children fuel r fuel' r')
    (inner : g.production = some id) (length : g.length = spread g.children)
    (extent : g.extent = stretch g.children) : Makes task [g] fuel r fuel' r' := by
  have first : firstIn? [g] = firstIn? g.children := by
    rw [firstIn?_cons, firstIn?_nil, Option.or_none, first?_node inner]
  refine ⟨h.ending, h.free, h.fewer, first ▸ h.spent, ?_, first ▸ h.recovery,
    first ▸ h.ambiguousFor⟩
  rw [h.position, ← Position.value_advance_single, Position.value_advance length extent]

end Makes

/-- An extra is pushed on the one stack that there is. -/
theorem shiftExtra_single (single : r.live = [s]) (la : Lookahead) (cost : Nat) :
    ∃ (state : StateId) (t : Stack), (r.shiftExtra la cost).live = [t] ∧
      t.gist = s.gist.onExtra (r.makeLeaf la state NodeFlags.onlyExtra).1.gist cost ∧
      t.state = s.state ∧ t.forked = s.forked ∧ (r.shiftExtra la cost).position = la.stop ∧
      (r.shiftExtra la cost).ambiguousFor = r.ambiguousFor ∧
      (r.shiftExtra la cost).recovery = r.recovery := by
  have few : decide (r.live.length > 1) = false := by
    rw [single]
    rfl
  have same := Alike.makeLeaf r la r.firstState
    { NodeFlags.onlyExtra with fragile := r.live.length > 1 }
  have live : (r.makeLeaf la r.firstState NodeFlags.onlyExtra).2.live = [s] :=
    (Keeps.makeLeaf la r.firstState NodeFlags.onlyExtra).live.trans single
  refine ⟨r.firstState, (s.push ⟨s.state, (r.makeLeaf la r.firstState NodeFlags.onlyExtra).1,
    la.stop, true⟩).charge cost, ?_, ?_, rfl, rfl, rfl, same.ambiguousFor.symm, same.recovery.symm⟩
  · show (r.makeLeaf la r.firstState
      { NodeFlags.onlyExtra with fragile := r.live.length > 1 }).2.live.map (fun s =>
        (s.push ⟨s.state, (r.makeLeaf la r.firstState
          { NodeFlags.onlyExtra with fragile := r.live.length > 1 }).1, la.stop, true⟩).charge
            cost) = _
    rw [few]
    exact congrArg _ live
  · rw [Stack.gist_charge, Stack.gist_push, Stack.onExtra, state_gist]
    rfl

/-- A token is shifted on the one stack that can shift it. -/
theorem shiftAll_single {m : Stack × StateId} (fresh : la.reused = none)
    (unforked : m.1.forked = false) :
    ∃ (r' : Run) (state : StateId) (t : Stack), (r.shiftAll task la [m]).live = [t] ∧
      t.gist = { m.1.gist.push ⟨m.2, (r'.makeLeaf la state NodeFlags.none).1.gist, Position.start,
        false⟩ with forked := false } ∧
      (r.shiftAll task la [m]).position = la.stop ∧ (r.shiftAll task la [m]).ambiguousFor = 0 ∧
      (r.shiftAll task la [m]).recovery = { r.recovery with skipped := 0 } := by
  obtain ⟨state, pushed⟩ := pushToken_live { r with recovery.skipped := 0 } la [m]
  have flags : NodeFlags.fragileIf (decide ([m].length > 1) || [m].any fun m => m.1.forked) =
      NodeFlags.none := by
    rw [List.any_cons, List.any_nil, unforked]
    rfl
  rw [flags] at pushed
  obtain ⟨_, _, -, -, same⟩ := pushToken_eq { r with recovery.skipped := 0 } la [m]
  obtain ⟨live, position, ambiguousFor, recovery⟩ := settle_single task.config pushed
  rw [shiftAll_eq fresh]
  refine ⟨_, state, _, live, rfl, position.trans rfl, ambiguousFor, recovery.trans ?_⟩
  rw [same]
  exact (Alike.makeLeaf { r with recovery.skipped := 0 } la _ _).recovery.symm

/-! ### Tokens -/

section Read

variable {P Q : Symbol → Prop} {f : Front} {x : Nat} {base : Stack} {place : Position} {g : Green}

/-- What is seen in a state is the token ahead of the one stack that is in it. -/
theorem lexed_of_sees (sees : task.language.Sees task.text s.state place.offset g) :
    (lexed task [s] place).token.symbol = g.symbol ∧
      (lexed task [s] place).token.isError = false ∧
      (lexed task [s] place).stop = place.behind [g] ∧
      ∀ (r : Run) (state : StateId) (flags : NodeFlags),
        (r.makeLeaf (lexed task [s] place) state flags).1.gist = (g.asToken flags).gist := by
  have stop : (lexed task [s] place).token.span.stop = place.offset + g.length :=
    congrArg (fun t => t.span.stop) sees
  have start : (lexed task [s] place).token.span.start = place.offset :=
    congrArg (fun t => t.span.start) sees
  have symbol : (lexed task [s] place).token.symbol = g.symbol := congrArg (·.symbol) sees
  have extent : (lexed task [s] place).token.extent = g.extent := congrArg (·.extent) sees
  have lookahead : (lexed task [s] place).token.lookahead = g.lookahead :=
    congrArg (·.lookahead) sees
  refine ⟨symbol, congrArg (·.isError) sees, ?_, fun r state flags => ?_⟩
  · rw [← Position.value_advance_single]
    show Position.mk (lexed task [s] place).token.span.stop
      (place.point.advance (lexed task [s] place).token.extent) = _
    rw [stop, extent]
    rfl
  · refine (leaf_lexed [s] place r state flags).trans (congrArg Green.gist ?_)
    show Green.leaf ⟨(lexed task [s] place).token.symbol, (lexed task [s] place).token.span.stop -
      (lexed task [s] place).token.span.start, (lexed task [s] place).token.extent,
      (lexed task [s] place).token.lookahead, 0, 0, flags⟩ = _
    rw [symbol, start, stop, extent, lookahead, Nat.add_sub_cancel_left]
    rfl

/-- A stack that leads to one with an action has one. -/
theorem hasActions_of_leads {l : Language} {t : Symbol} (leads : Leads l t s s')
    (some : l.hasActions s'.state t = true) : l.hasActions s.state t = true := by
  cases leads with
  | refl => exact some
  | fold calls folded rest =>
    rw [Language.hasActions, calls]
    rfl

/-- A token that a stack leads to the shift of is shifted. -/
theorem exists_shift (free : Unhindered task fuel r) (poised : Poised task P f x base r s)
    (leaf : g.gist = (g.asToken NodeFlags.none).gist)
    (sees : task.language.Sees task.text s.state x g) (calls : P g.symbol)
    (shift : task.language.actions f.closed g.symbol = [.shift (task.language.past f g).closed]) :
    ∃ fuel' r' s', Makes task [g] fuel r fuel' r' ∧
      Poised task Q (task.language.past f g) (x + g.length) (base.laid task.language f [g]) r'
        s' := by
  have token := production_of_asToken leaf
  have plain : g.isExtra = false := isExtra_of_asToken leaf
  have level : g.dynamicPrecedence = 0 := by
    rw [← dynamicPrecedence_gist, leaf, dynamicPrecedence_gist]
    rfl
  have place := poised.place
  subst place
  obtain ⟨symbol, right, stop, leaves⟩ := lexed_of_sees sees
  have enough := free.enough
  have ahead := free.lookahead
  have alike := lookahead_alike task r
  have live := (lookahead_reports task r).2.trans poised.single
  have fresh : (lexed task [s] r.position).reused = none := rfl
  rw [poised.single] at enough ahead
  generalize lexed task [s] r.position = la at symbol right stop leaves fresh enough ahead
  have leads := poised.leads _ calls
  rw [← poised.closed, ← symbol] at shift
  rw [← symbol] at leads
  have needed : (r.lookahead task).2.isPlainExtra task.language la = false := by
    have acts : task.language.hasActions s.state la.token.symbol = true := by
      rw [← state_gist]
      refine hasActions_of_leads leads ?_
      rw [Language.hasActions, shift]
      rfl
    rw [isPlainExtra, live, List.any_cons, acts, Bool.true_or, Bool.not_true, Bool.and_false]
  -- The reductions come to the stack that was led to, and that shifts the token.
  obtain ⟨shifts, accepted, -⟩ := reduceAll_leads_shift live poised.unforked
    (poised.own.symm ▸ leads) shift (enough right needed)
  have after : Alike _ ((r.lookahead task).2.reduceAll task la).2 := reduceAll_alike _ la
  obtain ⟨m, single, same⟩ := List.map_eq_singleton_iff.mp shifts
  obtain ⟨own, target⟩ := Prod.mk.inj same
  rw [poised.own] at own
  have accepted := List.map_eq_nil_iff.mp accepted
  have more : r.turn task = .more (((r.lookahead task).2.reduceAll task la).2.shiftAll task la
      ((r.lookahead task).2.reduceAll task la).1.shifts) := by
    rw [turn]
    dsimp only
    rw [ahead, step_eq, if_neg (Bool.eq_false_iff.mp right), if_neg (Bool.eq_false_iff.mp needed),
      conclude, accepted, single, show Frontier.best? [] = none from rfl, ite_self]
    rfl
  obtain ⟨fuel', rfl, ending, free'⟩ := free.turn more
  rw [single] at ending free'
  have unforked : m.1.forked = false :=
    (congrArg Stack.forked own).trans (leads.forked.trans poised.unforked)
  obtain ⟨r₁, state, t, single', gist, position, ambiguousFor, recovery⟩ :=
    shiftAll_single (r := ((r.lookahead task).2.reduceAll task la).2) fresh unforked
  have first : firstIn? [g] = some g.symbol := by
    rw [firstIn?_cons, first?_token token plain]
    rfl
  have past := past_token (l := task.language) (f := f) token plain
  have made : t.gist = base.laid task.language f [g] := by
    rw [gist, leaves, ← leaf, own, Stack.laid, Stack.laid, Stack.laidOn, plain, level, Int.add_zero,
      target]
    have none := leads.forked.trans poised.unforked
    rw [← none]
    rfl
  refine ⟨fuel', _, t, ⟨ending, free', Nat.le_succ fuel', fun _ => Nat.lt_succ_self fuel', ?_, ?_,
    ?_⟩, ⟨single', ?_, ?_, fun u hu => ?_, gist_laid poised.own, state_laid poised.closed, ?_, ?_⟩⟩
  · exact position.trans stop
  · rw [first, recovery, ← after.recovery, alike.recovery]
    rfl
  · rw [first, ambiguousFor]
    rfl
  · rw [← forked_gist, gist]
  · rw [position, stop]
    rfl
  · rw [made]
    exact .refl
  · rw [← state_gist, made, state_laid poised.closed, pastAll_cons, pastAll_nil, past]
  · rw [past, Stack.laid, Stack.laid]
    exact plain

/-- An extra that a stack can do nothing else with is pushed. -/
theorem exists_extra (free : Unhindered task fuel r) (poised : Poised task P f x base r s)
    (leaf : g.gist = (g.asToken NodeFlags.onlyExtra).gist)
    (sees : task.language.Sees task.text s.state x g) (notEnd : g.symbol ≠ Symbol.endOfText)
    (extra : task.language.isExtra g.symbol = true)
    (idle : task.language.hasActions s.state g.symbol = false) :
    ∃ fuel' r' s', Makes task [g] fuel r fuel' r' ∧
      Poised task P (task.language.past f g) (x + g.length) (base.laid task.language f [g]) r'
        s' := by
  have token := production_of_asToken leaf
  have isExtra : g.isExtra = true := isExtra_of_asToken leaf
  have level : g.dynamicPrecedence = 0 := by
    rw [← dynamicPrecedence_gist, leaf, dynamicPrecedence_gist]
    rfl
  have place := poised.place
  subst place
  obtain ⟨symbol, right, stop, leaves⟩ := lexed_of_sees sees
  have ahead := free.lookahead
  have alike := lookahead_alike task r
  have live := (lookahead_reports task r).2.trans poised.single
  rw [poised.single] at ahead
  generalize lexed task [s] r.position = la at symbol right stop leaves ahead
  have plain : (r.lookahead task).2.isPlainExtra task.language la = true := by
    rw [isPlainExtra, live, List.any_cons, List.any_nil, Token.isEnd, symbol, idle, extra,
      beq_eq_false_iff_ne.mpr notEnd]
    rfl
  have more : r.turn task = .more ((r.lookahead task).2.shiftExtra la 0) := by
    rw [turn]
    dsimp only
    rw [ahead, step_eq, if_neg (Bool.eq_false_iff.mp right), if_pos plain]
  obtain ⟨fuel', rfl, ending, free'⟩ := free.turn more
  obtain ⟨state, t, single, gist, same, forked, position, ambiguousFor, recovery⟩ :=
    shiftExtra_single live la 0
  have first : firstIn? [g] = none := by
    rw [firstIn?_cons, first?_extra token isExtra, firstIn?_nil]
    rfl
  have past := past_extra (l := task.language) (f := f) token isExtra
  have laid : base.laid task.language f [g] = base.onExtra g.gist 0 := by
    rw [Stack.laid, Stack.laid, Stack.laidOn, Stack.onExtra, past, poised.closed, isExtra, level,
      Int.add_zero]
    rfl
  refine ⟨fuel', _, t, ⟨ending, free', Nat.le_succ fuel', fun some => ?_, ?_, ?_, ?_⟩,
    ⟨single, forked.trans poised.unforked, ?_, fun u hu => ?_, gist_laid poised.own,
      state_laid poised.closed, ?_, ?_⟩⟩
  · rw [first] at some
    cases some
  · exact position.trans stop
  · rw [first, recovery]
    exact alike.recovery.symm
  · rw [first, ambiguousFor]
    exact alike.ambiguousFor.symm
  · rw [position, stop]
    rfl
  · rw [gist, leaves, ← leaf, laid]
    exact (poised.leads u hu).onExtra g.gist 0
  · rw [past, same]
    exact poised.opened
  · rw [laid, past]
    rfl

end Read

end Run

/-- A parse that comes to a place with one stack makes the trees that can be made again there. -/
theorem Retraces.makes {task : ParseTask} {P : Symbol → Prop} {f : Front} {x : Nat}
    {gs : List Green} (h : Retraces task.language task.text P f x gs) :
    ∀ {fuel : Nat} {r : Run} {s base : Stack}, Run.Unhindered task fuel r →
      Run.Poised task (Next gs P) f x base r s →
      ∃ fuel' r' s', Run.Makes task gs fuel r fuel' r' ∧
        Run.Poised task P (task.language.pastAll f gs) (x + spread gs)
          (base.laid task.language f gs) r' s' := by
  induction h with
  | nil =>
    intro fuel r s base free poised
    rw [next_nil] at poised
    rw [pastAll_nil, spread_nil, Nat.add_zero, Stack.laid]
    exact ⟨fuel, r, s, .nil free, poised⟩
  | @token P f x g gs leaf nonempty reads shift rest ih =>
    intro fuel r s base free poised
    have calls : Next (g :: gs) P g.symbol := by
      rw [Next, firstIn?_cons, first?_token (production_of_asToken leaf) (isExtra_of_asToken leaf)]
      rfl
    obtain ⟨fuel₁, r₁, s₁, made, poised₁⟩ :=
      Run.exists_shift free poised leaf (reads _ poised.opened) calls shift
    obtain ⟨fuel', r', s', made', poised'⟩ := ih made.free poised₁
    refine ⟨fuel', r', s', made.append made', ?_⟩
    rw [pastAll_cons, spread_cons, ← Nat.add_assoc, Stack.laid]
    exact poised'
  | @extra P f x g gs leaf nonempty notEnd extra reads rest ih =>
    intro fuel r s base free poised
    obtain ⟨sees, idle⟩ := reads _ poised.opened
    have next : Next (g :: gs) P = Next gs P := by
      funext t
      rw [Next, firstIn?_cons,
        first?_extra (production_of_asToken leaf) (isExtra_of_asToken leaf), Option.none_or, Next]
    obtain ⟨fuel₁, r₁, s₁, made, poised₁⟩ :=
      Run.exists_extra free poised leaf sees notEnd extra idle
    rw [next] at poised₁
    obtain ⟨fuel', r', s', made', poised'⟩ := ih made.free poised₁
    refine ⟨fuel', r', s', made.append made', ?_⟩
    rw [pastAll_cons, spread_cons, ← Nat.add_assoc, Stack.laid]
    exact poised'
  | @node P f x g gs id p known made fills onTop below calls goto rest ih ih' =>
    intro fuel r s base free poised
    have inner := production_of_made made
    have length := length_of_made made
    have extent : g.extent = stretch g.children := by
      rw [← extent_gist, made, extent_gist, extent_node]
    have next : Next (g :: gs) P = Next g.children (Next gs P) := by
      funext t
      rw [next_cons, Next, firstIn?_cons, firstIn?_nil, Option.or_none, first?_node inner]
      rfl
    rw [next] at poised
    obtain ⟨fuel₁, r₁, s₁, made₁, poised₁⟩ := ih free poised
    -- The node is not on the stack yet, but the symbols behind call for its reduction.
    have folded := folded?_laid known made fills
      (fun none => poised.trailing.trans (onTop none)) goto poised.closed
    have past := past_node (l := task.language) (f := f) inner
    have poised₂ : Run.Poised task (Next gs P) (task.language.past f g) (x + g.length)
        (base.laid task.language f [g]) r₁ s₁ := by
      refine ⟨poised₁.single, poised₁.unforked, ?_, fun t ht => ?_, gist_laid poised.own,
        state_laid poised.closed, ?_, ?_⟩
      · rw [length]
        exact poised₁.place
      · refine (poised₁.leads t ht).trans (.fold ?_ folded .refl)
        rw [state_laid poised.closed]
        exact calls t ht
      · rw [past]
        exact poised₁.opened
      · rw [past, Stack.laid, Stack.laid]
        exact isExtra_of_made made
    obtain ⟨fuel', r', s', made', poised'⟩ := ih' made₁.free poised₂
    refine ⟨fuel', r', s', (made₁.node inner length extent).append made', ?_⟩
    rw [pastAll_cons, spread_cons, ← Nat.add_assoc, Stack.laid]
    exact poised'

end Glr
