import Glr.Proofs.Closing
import Glr.Proofs.Remaking
import Glr.Proofs.Taken

/-!
# A parse with an old tree beside one without

A parse that takes a tree over from an old one is ahead of the parse that has to make it: it has
pushed the tree and gone to the state behind, where the other has at best shifted the last token of
it and waits for the next with the reductions at the end of the tree still to make.  That is no
harm if both read the same token, push what is to be pushed as an extra, and come to a token that
calls for these reductions and for nothing else (`Handover`).  Then they are level again.

So the two parses are kept side by side (`Run.Level`): a turn of the one with the old tree is
answered by a number of turns of the other, at least one (`Run.answered_turn`), and what they come
to in the end has one gist (`Run.gist_ending`).
-/

namespace Glr

open Green Stack

namespace Run

variable {task : ParseTask} {root : Green} {r r' : Run} {la la' : Lookahead} {s s' : Stack}
  {fuel : Nat} {tokens : List Lookahead}

/-- The subtree that a parse takes over in its next turn, with the stack that it is pushed on and
the state behind. -/
def takenOver? (task : ParseTask) (r : Run) : Option (Stack × Green × StateId) :=
  let (la, r) := r.lookahead task
  let (phase, r) := r.reduceAll task la
  (r.subtree task.language la phase.shifts).1

theorem takenOver?_eq (task : ParseTask) (r : Run) : r.takenOver? task =
    (subtree task.language ((r.lookahead task).2.reduceAll task (r.lookahead task).1).2
      (r.lookahead task).1
      ((r.lookahead task).2.reduceAll task (r.lookahead task).1).1.shifts).1 := rfl

/-- Behind each subtree that a parse takes over the states before and after its last reductions see
the same.  The token behind calls for these reductions, unless that is sure anyway. -/
def HandsOver (task : ParseTask) (root : Green) (sure : Bool) : Prop :=
  ∀ tokens r, Reached task (some root) tokens r → ∀ s g target,
    r.takenOver? task = some (s, g, target) →
    ∀ opened ∈ (task.language.past ⟨g.parseState, none, false⟩ g).opened,
      task.language.Handover task.text
        (fun t => sure || g.closes task.language t ⟨g.parseState, none, false⟩) opened target
        (r.position.offset + g.length)

/-- Whether behind each subtree that is taken over in a number of turns, which are to be the last,
the states see the same. -/
def handsOver (task : ParseTask) (sure : Bool) : Nat → Run → Bool
  | 0, _ => false
  | turns + 1, r =>
    ((r.takenOver? task).all fun m =>
      (task.language.past ⟨m.2.1.parseState, none, false⟩ m.2.1).opened.all fun opened =>
        task.language.handsOver task.text
          (fun t => sure || m.2.1.closes task.language t ⟨m.2.1.parseState, none, false⟩) opened
          m.2.2 (task.text.size + 1) (r.position.offset + m.2.1.length)) &&
      match r.turn task with
      | .more r' => handsOver task sure turns r'
      | .done _ _ => true

theorem HandsOver.of_handsOver {sure : Bool} (turns : Nat)
    (h : handsOver task sure turns (initial (some root)) = true) : HandsOver task root sure := by
  -- What is reached has as many turns left as the check looks ahead from there.
  have onward : ∀ {tokens : List Lookahead} {r : Run}, Reached task (some root) tokens r →
      ∃ left, handsOver task sure (left + 1) r = true := by
    intro tokens r reached
    induction reached with
    | initial =>
      cases turns with
      | zero => cases h
      | succ left => exact ⟨left, h⟩
    | turn _ more ih =>
      obtain ⟨left, checked⟩ := ih
      rw [handsOver, more] at checked
      obtain ⟨-, checked⟩ := Bool.and_eq_true_iff.mp checked
      cases left with
      | zero => cases checked
      | succ left => exact ⟨left, checked⟩
  intro tokens r reached s g target taken opened isOpened
  obtain ⟨left, checked⟩ := onward reached
  rw [handsOver] at checked
  have here := (Bool.and_eq_true_iff.mp checked).1
  rw [taken, Option.all_some, Option.mem_def.mp isOpened, Option.all_some] at here
  exact .of_handsOver here

/-- A parse with an old tree and one without are at one place.  Either nothing tells them apart, or
the one has taken over a tree and the other has still to make the reductions at its end. -/
inductive Level (task : ParseTask) (r r' : Run) : Prop where
  | alike (alike : r'.Alike r)
  | behind {g : Green} {s s' : Stack} (single : r.live = [s]) (single' : r'.live = [s'])
      (unforked : s'.forked = false) (position : r'.position = r.position)
      (ambiguousFor : r'.ambiguousFor = r.ambiguousFor) (recovery : r'.recovery = r.recovery)
      (leads : ∀ t, g.closes task.language t ⟨g.parseState, none, false⟩ = true →
        Leads task.language t s'.gist s.gist)
      (handover : task.language.Handover task.text
        (fun t => g.closes task.language t ⟨g.parseState, none, false⟩) s'.state s.state
        r.position.offset)

/-- What a turn of the one parse comes to, with turns of the other that come to the same. -/
inductive Answered (task : ParseTask) (fuel : Nat) (r' : Run) : Flow → Prop where
  | more {r₁ r₁' : Run} {fuel' : Nat} (free : Unhindered task fuel' r₁') (fewer : fuel' < fuel)
      (same : ending task fuel r' = ending task fuel' r₁') (level : Level task r₁ r₁') :
      Answered task fuel r' (.more r₁)
  | done {root : Green} {r₁ : Run} (same : (ending task fuel r').root.gist = root.gist) :
      Answered task fuel r' (.done root r₁)

theorem Answered.of_alike {flow : Flow} (free : Unhindered task fuel r')
    (alike : (r'.turn task).Alike flow) : Answered task fuel r' flow := by
  generalize turn : r'.turn task = flow' at alike
  cases alike with
  | more alike =>
    obtain ⟨fuel', rfl, same, free'⟩ := free.turn turn
    exact .more free' (Nat.lt_succ_self fuel') same (.alike alike)
  | done same =>
    obtain ⟨fuel', rfl⟩ := free.exists_fuel
    refine .done ?_
    rw [ending_done turn]
    exact same

/-! ## The token ahead -/

theorem lexSet_gists (l : Language) (live : List Stack) :
    lexSet l (live.map Stack.gist) = lexSet l live := by
  have modes : sharedLexMode? l (live.map Stack.gist) = sharedLexMode? l live := by
    cases live with
    | nil => rfl
    | cons s live => simp [sharedLexMode?, Function.comp_def]
  rw [lexSet, lexSet, modes, unionSet, unionSet, List.foldl_map]
  simp only [state_gist]

/-- The token ahead is a matter of the place and of the gists of the stacks. -/
theorem lexed_congr (h : r.Alike r') :
    lexed task r.live r.position = lexed task r'.live r'.position := by
  rw [lexed, lexed, ← lexSet_gists, h.live, lexSet_gists, h.position]

theorem isPlainExtra_congr {l : Language} (h : r.Alike r')
    (symbol : la.token.symbol = la'.token.symbol) :
    r.isPlainExtra l la = r'.isPlainExtra l la' := by
  have any : (r.live.any fun s => l.hasActions s.state la.token.symbol) =
      r'.live.any fun s => l.hasActions s.state la.token.symbol := by
    have := congrArg (·.any fun s : Stack => l.hasActions s.state la.token.symbol) h.live
    simpa only [List.any_map, Function.comp_def, state_gist] using this
  rw [isPlainExtra, isPlainExtra, any, symbol, Token.isEnd, Token.isEnd, symbol]

theorem isPlainExtra_single {l : Language} (single : r.live = [s]) (la : Lookahead)
    (right : la.token.isError = false) :
    r.isPlainExtra l la = l.setsAside s.state la.token := by
  rw [isPlainExtra, single, List.any_cons, List.any_nil, Bool.or_false, Language.setsAside, right,
    Bool.false_or]

/-- Two states that see the same have tokens ahead that make no difference. -/
theorem lexed_of_sight {place : Position} (same :
    (task.language.reads task.text s'.state place.offset).sight =
      (task.language.reads task.text s.state place.offset).sight) :
    (lexed task [s'] place).Alike (lexed task [s] place) := by
  have symbol : (lexed task [s'] place).token.symbol = (lexed task [s] place).token.symbol :=
    congrArg (·.symbol) same
  have span : (lexed task [s'] place).token.span = (lexed task [s] place).token.span :=
    congrArg (·.span) same
  have extent : (lexed task [s'] place).token.extent = (lexed task [s] place).token.extent :=
    congrArg (·.extent) same
  have lookahead : (lexed task [s'] place).token.lookahead = (lexed task [s] place).token.lookahead :=
    congrArg (·.lookahead) same
  refine ⟨symbol, span, congrArg (·.isError) same, rfl, ?_, fun r r' state state' flags _ => ?_⟩
  · show Position.mk (lexed task [s'] place).token.span.stop
      (place.point.advance (lexed task [s'] place).token.extent) = _
    rw [span, extent]
    rfl
  · refine (leaf_lexed [s'] place r state flags).trans
      (Eq.trans ?_ (leaf_lexed [s] place r' state' flags).symm)
    show (Green.leaf ⟨(lexed task [s'] place).token.symbol,
      (lexed task [s'] place).token.span.stop - (lexed task [s'] place).token.span.start,
      (lexed task [s'] place).token.extent, (lexed task [s'] place).token.lookahead, 0, 0,
      flags⟩).gist = _
    rw [symbol, span, extent, lookahead]
    rfl

/-- A token that the one stack sets aside is pushed as an extra. -/
theorem turn_of_setsAside (single : r.live = [s])
    (aside : task.language.setsAside s.state (r.lookahead task).1.token = true) :
    ∃ q : Run, q.live = [s] ∧ q.ambiguousFor = r.ambiguousFor ∧ q.recovery = r.recovery ∧
      r.turn task = .more (q.shiftExtra (r.lookahead task).1
        (if (r.lookahead task).1.token.isError then Repair.skipCost else 0)) := by
  have alike := lookahead_alike task r
  have live := (lookahead_reports task r).2.trans single
  cases wrong : (r.lookahead task).1.token.isError with
  | true =>
    let span := (r.lookahead task).1.token.span
    refine ⟨(r.lookahead task).2.noteRepair (.unrecognized (Utf8.decodeLossy
      (task.text.extract span.start span.stop))) span, live, alike.ambiguousFor.symm,
      alike.recovery.symm, ?_⟩
    rw [turn]
    dsimp only
    rw [step_eq, if_pos wrong]
    rfl
  | false =>
    refine ⟨(r.lookahead task).2, live, alike.ambiguousFor.symm, alike.recovery.symm, ?_⟩
    rw [← isPlainExtra_single live _ wrong] at aside
    rw [turn]
    dsimp only
    rw [step_eq, if_neg (Bool.eq_false_iff.mp wrong), if_pos aside]
    rfl

/-- Without a token from the old tree no subtree is looked for. -/
theorem subtree_of_lexed {l : Language} {shifts : List (Stack × StateId)}
    (fresh : la.reused = none) : (r.subtree l la shifts).1 = none := by
  rw [subtree.eq_def]
  split
  · rw [fresh, Option.isNone_none, Bool.or_true, if_pos rfl]
  · rfl

theorem subtree_of_some {l : Language} {shifts : List (Stack × StateId)} {g : Green}
    {target : StateId} (taken : (r.subtree l la shifts).1 = some (s, g, target)) :
    ∃ next, shifts = [(s, next)] ∧ s.forked = false ∧ la.reused ≠ none ∧
      (reusableNode l s.state la.start.offset r.reuse).1 = some (g, target) := by
  rw [subtree.eq_def] at taken
  split at taken
  · next t next =>
    split at taken
    · cases taken
    · next usable =>
      dsimp only at taken
      obtain ⟨m, found, same⟩ := Option.map_eq_some_iff.mp taken
      cases same
      rw [Bool.or_eq_true, not_or, Bool.not_eq_true, Option.isNone_iff_eq_none] at usable
      exact ⟨next, rfl, usable.1, usable.2, found⟩
  · cases taken

/-- A subtree that is taken over fits where it is pushed, in place of the one shift that there
is. -/
theorem takenOver_spec {old : Option Green} (good : r.Good task old) {target : StateId} {n : Green}
    (taken : r.takenOver? task = some (s, n, target)) :
    (∃ next, ((r.lookahead task).2.reduceAll task (r.lookahead task).1).1.shifts = [(s, next)]) ∧
      s.forked = false ∧ (r.lookahead task).1.reused ≠ none ∧
      Fitting task.language old s.state (r.lookahead task).1.start.offset n target := by
  obtain ⟨ahead, here, good'⟩ := lookahead_spec good
  obtain ⟨-, keeps⟩ := reduceAll_sound ahead fun s hs => here ▸ good'.built s hs
  obtain ⟨next, shifts, unforked, reused, found⟩ := subtree_of_some taken
  exact ⟨⟨next, shifts⟩, unforked, reused,
    (reusableNode_fitting task.language s.state _ (keeps.inside good'.inside)).2 n target found⟩

/-! ## A tree that is taken over -/

/-- A subtree is pushed on the one stack that is left. -/
theorem shiftAll_taken {shifts : List (Stack × StateId)} {n : Green} {target : StateId}
    (taken : (r.subtree task.language la shifts).1 = some (s, n, target))
    (unforked : s.forked = false) :
    ∃ t, (r.shiftAll task la shifts).live = [t] ∧
      t.gist = { s.gist with
        entries := ⟨target, n.gist, Position.start, false⟩ :: s.gist.entries
        dynamicPrecedence := s.gist.dynamicPrecedence + n.dynamicPrecedence } ∧
      t.state = target ∧ (r.shiftAll task la shifts).position = la.start.behind [n] ∧
      (r.shiftAll task la shifts).ambiguousFor = 0 ∧
      (r.shiftAll task la shifts).recovery = { r.recovery with skipped := 0 } := by
  obtain ⟨reuse, pushes⟩ := shiftAll_of_some taken
  obtain ⟨live, position, ambiguousFor, recovery⟩ := settle_single task.config
    (r := pushSubtree { r with recovery.skipped := 0, reuse } la s n target) rfl
  rw [pushes]
  refine ⟨_, live, ?_, rfl, position.trans ?_, ambiguousFor, recovery⟩
  · rw [← unforked]
    rfl
  · rw [← Position.value_advance_single]
    rfl

/-- Both parses have a token ahead that calls for a look at the tables, and the reductions on it
come to the same. -/
structure Facing (task : ParseTask) (r r' : Run) : Prop where
  position : r'.position = r.position
  ambiguousFor : r'.ambiguousFor = r.ambiguousFor
  recovery : r'.recovery = r.recovery
  ahead : (lexed task r'.live r'.position).Alike (r.lookahead task).1
  right : (r.lookahead task).1.token.isError = false
  needed : (r.lookahead task).2.isPlainExtra task.language (r.lookahead task).1 = false
  needed' : (r'.lookahead task).2.isPlainExtra task.language (lexed task r'.live r'.position) = false
  phase : ((r'.lookahead task).2.reduceAll task (lexed task r'.live r'.position)).1.Alike
    ((r.lookahead task).2.reduceAll task (r.lookahead task).1).1
  single : ∀ s, r.live = [s] → ∃ s', r'.live = [s'] ∧
    Leads task.language (r.lookahead task).1.token.symbol s'.gist s.gist ∧
    (task.language.reads task.text s'.state r.position.offset).sight =
      (task.language.reads task.text s.state r.position.offset).sight

section Turn

variable {g : FlatGrammar} {a : Automaton} (founded : task.language.Founded g a)
  (legacy : Legacy task root) (hands : HandsOver task root false)
  (reached : Reached task (some root) tokens r) (free : Unhindered task fuel r')

theorem Facing.turn (facing : Facing task r r') : r.turn task =
    conclude task (r.lookahead task).1
      ((r.lookahead task).2.reduceAll task (r.lookahead task).1).1
      ((r.lookahead task).2.reduceAll task (r.lookahead task).1).2 := by
  rw [Run.turn]
  dsimp only
  rw [step_eq, if_neg (Bool.eq_false_iff.mp facing.right),
    if_neg (Bool.eq_false_iff.mp facing.needed)]

include founded reached in
theorem states_known : ∀ s ∈ r.live, s.state < task.language.tables.states.size := by
  intro s hs
  have laid := (tracked_of_built (reached.good.built s hs)).laid founded
  rw [founded.tab.size, Stack.state_eq]
  exact laid.stateOver_lt (Automaton.coherent_ofGrammar founded.tab.automaton)

include founded legacy hands reached free

/-- Where a subtree is taken over, the parse without an old tree makes it. -/
theorem answered_takenOver (facing : Facing task r r') {s : Stack} {n : Green} {target : StateId}
    (taken : r.takenOver? task = some (s, n, target)) : Answered task fuel r' (r.turn task) := by
  have good := reached.good
  have live := (lookahead_reports task r).2
  have opened := hands tokens r reached s n target taken
  obtain ⟨⟨next, shifts⟩, unforked, reused, fitting⟩ := takenOver_spec good taken
  rw [takenOver?_eq] at taken
  obtain ⟨top, leaf, single, reusable, mode, held, ahead⟩ :=
    (lookahead_cases good.inside (states_known founded reached)).resolve_left
      fun lexed => reused lexed.2
  have start : (r.lookahead task).1.start = r.position := by
    rw [ahead]
    rfl
  have symbol : (r.lookahead task).1.token.symbol = leaf.symbol := by
    rw [ahead]
    rfl
  rw [start] at fitting
  -- The stack of the other parse leads to the one that the subtree is pushed on.
  obtain ⟨top', single', leads, sight⟩ := facing.single top single
  obtain ⟨leads', shift⟩ := leads_of_reduceAll (live.trans single)
    (shifts ▸ List.mem_singleton_self _) unforked
  have base := leads.trans leads'
  have sturdy : top'.forked = false := base.forked.symm.trans unforked
  have sees : task.language.Sees task.text top'.state r.position.offset leaf := by
    have reads := legacy.reads held reusable
    rw [mode] at reads
    refine sight.trans ?_
    rw [Language.reads, reads]
  obtain ⟨first, past, remade⟩ := legacy.again fitting
    (f := ⟨s.state, some top'.state, isTrailing s.gist.entries⟩) held reusable rfl
    (symbol ▸ shift) fun o ho => Option.some.inj ho ▸ sees
  obtain ⟨fuel', r₁', s₁', made, poised⟩ := remade.makes (s := top') free
    ⟨single', sturdy, congrArg _ facing.position, fun t ht => by
      rw [Next, first] at ht
      obtain rfl := ht
      exact symbol ▸ base, Stack.gist_gist s, state_gist s, rfl, rfl⟩
  -- Nothing but the shift comes out of the reductions, and the subtree is pushed in its place.
  have accepted : ((r.lookahead task).2.reduceAll task (r.lookahead task).1).1.accepted = [] := by
    have phase := reduceAll_leads_shift ((lookahead_reports task r').2.trans single') sturdy
      (by rw [facing.ahead.symbol]; exact base) (by rw [facing.ahead.symbol]; exact shift)
      (free.enough (facing.ahead.isError.trans facing.right) facing.needed')
    exact List.map_eq_nil_iff.mp (facing.phase.accepted.symm.trans phase.accepted)
  have turn : r.turn task = .more (((r.lookahead task).2.reduceAll task
      (r.lookahead task).1).2.shiftAll task (r.lookahead task).1
        ((r.lookahead task).2.reduceAll task (r.lookahead task).1).1.shifts) := by
    rw [facing.turn, conclude, accepted, show Frontier.best? [] = none from rfl, ite_self, shifts]
    rfl
  have after : Alike _ ((r.lookahead task).2.reduceAll task (r.lookahead task).1).2 :=
    reduceAll_alike _ _
  obtain ⟨t, live₁, gist, state, position, ambiguousFor, recovery⟩ := shiftAll_taken taken unforked
  obtain ⟨id, production⟩ := Option.isSome_iff_exists.mp (legacy.retraces fitting).1
  have laid : s.gist.laid task.language ⟨s.state, some top'.state, isTrailing s.gist.entries⟩ [n] =
      t.gist := by
    rw [Stack.laid, Stack.laid, Stack.laidOn, gist, past_node production, fitting.goto,
      remade.isExtra_eq_false (production ▸ rfl)]
    rfl
  rw [turn]
  refine .more made.free (made.spent (by rw [first]; rfl)) made.ending
    (.behind (g := n) live₁ poised.single poised.unforked ?_ ?_ ?_ (fun u hu => ?_) ?_)
  · rw [position, start, made.position, facing.position]
  · rw [made.ambiguousFor, first, ambiguousFor]
    rfl
  · rw [made.recovery, first, recovery, facing.recovery, (lookahead_alike task r).recovery]
    exact congrArg (fun q : RecoveryState => { q with skipped := 0 }) after.recovery
  · exact laid ▸ poised.leads u hu
  · rw [state, position, start]
    refine opened s₁'.state ?_
    rw [← past]
    have := poised.opened
    rwa [pastAll_cons, pastAll_nil] at this

/-- Where both parses have the same to do, they do it, or the one takes a subtree over. -/
theorem answered_facing (facing : Facing task r r') : Answered task fuel r' (r.turn task) := by
  cases taken : r.takenOver? task with
  | some m =>
    obtain ⟨s, n, target⟩ := m
    exact answered_takenOver founded legacy hands reached free facing taken
  | none =>
    refine .of_alike free ?_
    have here := free.lookahead
    have turn : r'.turn task = conclude task (lexed task r'.live r'.position)
        ((r'.lookahead task).2.reduceAll task (lexed task r'.live r'.position)).1
        ((r'.lookahead task).2.reduceAll task (lexed task r'.live r'.position)).2 := by
      rw [Run.turn]
      dsimp only
      rw [here, step_eq, if_neg (Bool.eq_false_iff.mp (facing.ahead.isError.trans facing.right)),
        if_neg (Bool.eq_false_iff.mp facing.needed')]
    have start : Alike { (r'.lookahead task).2 with live := [] }
        { (r.lookahead task).2 with live := [] } := by
      have alike := lookahead_alike task r
      have alike' := lookahead_alike task r'
      exact ⟨rfl, alike'.position.symm.trans (facing.position.trans alike.position),
        alike'.ambiguousFor.symm.trans (facing.ambiguousFor.trans alike.ambiguousFor),
        alike'.recovery.symm.trans (facing.recovery.trans alike.recovery)⟩
    rw [turn, facing.turn]
    exact conclude_congr (start.both (reduceAll_alike _ _) (reduceAll_alike _ _)) facing.ahead
      facing.phase (subtree_of_lexed rfl) taken

/-- Parses that nothing tells apart. -/
theorem answered_alike (alike : r'.Alike r) : Answered task fuel r' (r.turn task) := by
  have here := free.lookahead
  obtain ⟨-, read⟩ :=
    lookahead_reads legacy reached.good.inside (states_known founded reached)
  have ahead : (lexed task r'.live r'.position).Alike (r.lookahead task).1 := by
    rw [lexed_congr alike]
    exact read.symm
  have both := alike.both (lookahead_alike task r') (lookahead_alike task r)
  have plain := isPlainExtra_congr (l := task.language) both ahead.symbol
  by_cases wrong : (r.lookahead task).1.token.isError = true
  · refine .of_alike free ?_
    rw [Run.turn, Run.turn]
    dsimp only
    rw [here, step_eq, step_eq, if_pos wrong, if_pos (ahead.isError.trans wrong)]
    exact .more (takeUnknown_congr both ahead)
  · have right := Bool.eq_false_iff.mpr wrong
    have right' := ahead.isError.trans right
    by_cases aside : (r.lookahead task).2.isPlainExtra task.language (r.lookahead task).1 = true
    · refine .of_alike free ?_
      rw [Run.turn, Run.turn]
      dsimp only
      rw [here, step_eq, step_eq, if_neg wrong, if_neg (Bool.eq_false_iff.mp right'),
        if_pos aside, if_pos (plain.trans aside)]
      exact .more (shiftExtra_congr both ahead 0)
    · have needed := Bool.eq_false_iff.mpr aside
      have needed' := plain.trans needed
      refine answered_facing founded legacy hands reached free ⟨alike.position, alike.ambiguousFor,
        alike.recovery, ahead, right, needed, needed', ?_, fun s single => ?_⟩
      · exact reduceAll_congr ahead.symbol both.live (free.enough right' needed')
      · have live := alike.live
        rw [single] at live
        obtain ⟨s', single', same⟩ := List.map_eq_singleton_iff.mp live
        refine ⟨s', single', same ▸ .refl, ?_⟩
        rw [state_congr same]

/-- Parses of which the one has taken over a subtree. -/
theorem answered_behind {n : Green} {s s' : Stack} (single : r.live = [s]) (single' : r'.live = [s'])
    (unforked : s'.forked = false) (position : r'.position = r.position)
    (ambiguousFor : r'.ambiguousFor = r.ambiguousFor) (recovery : r'.recovery = r.recovery)
    (leads : ∀ t, n.closes task.language t ⟨n.parseState, none, false⟩ = true →
      Leads task.language t s'.gist s.gist)
    (handover : task.language.Handover task.text
      (fun t => n.closes task.language t ⟨n.parseState, none, false⟩) s'.state s.state
      r.position.offset) : Answered task fuel r' (r.turn task) := by
  have here := free.lookahead
  obtain ⟨token, read⟩ :=
    lookahead_reads legacy reached.good.inside (states_known founded reached)
  have live := (lookahead_reports task r).2.trans single
  have live' := (lookahead_reports task r').2.trans single'
  rw [single] at token read
  have token : (r.lookahead task).1.token =
    task.language.reads task.text s.state r.position.offset := token
  have token' : (r'.lookahead task).1.token =
      task.language.reads task.text s'.state r.position.offset := by
    rw [here, single', position]
    rfl
  cases handover with
  | pass same aside aside' rest =>
    have ahead : (r'.lookahead task).1.Alike (r.lookahead task).1 := by
      rw [here, single', position]
      exact (lexed_of_sight same).trans read.symm
    obtain ⟨q, live₁, ambiguousFor₁, recovery₁, turn⟩ := turn_of_setsAside single (token ▸ aside')
    obtain ⟨q', live₁', ambiguousFor₁', recovery₁', turn'⟩ :=
      turn_of_setsAside single' (token' ▸ aside)
    obtain ⟨fuel', rfl, same', free'⟩ := free.turn turn'
    obtain ⟨state, t, single₂, gist, top, -, position₂, ambiguousFor₂, recovery₂⟩ :=
      shiftExtra_single live₁ (r.lookahead task).1
        (if (r.lookahead task).1.token.isError then Repair.skipCost else 0)
    obtain ⟨state', t', single₂', gist', top', sturdy, position₂', ambiguousFor₂', recovery₂'⟩ :=
      shiftExtra_single live₁' (r'.lookahead task).1
        (if (r'.lookahead task).1.token.isError then Repair.skipCost else 0)
    rw [turn]
    refine .more free' (Nat.lt_succ_self fuel') same' (.behind (g := n) single₂ single₂'
      (sturdy.trans unforked) ?_ ?_ ?_ (fun u hu => ?_) ?_)
    · rw [position₂, position₂', ahead.stop]
    · rw [ambiguousFor₂, ambiguousFor₂', ambiguousFor₁, ambiguousFor₁', ambiguousFor]
    · rw [recovery₂, recovery₂', recovery₁, recovery₁', recovery]
    · rw [gist, gist', ahead.isError, ahead.leaf q' q state' state NodeFlags.onlyExtra rfl]
      exact (leads u hu).onExtra _ _
    · rw [top, top', position₂, read.stop]
      exact rest
  | meet same taken taken' closes =>
    have ahead : (lexed task r'.live r'.position).Alike (r.lookahead task).1 := by
      rw [single', position]
      exact (lexed_of_sight same).trans read.symm
    rw [← token] at taken' closes
    rw [← token', here] at taken
    have right : (r.lookahead task).1.token.isError = false :=
      (Bool.or_eq_false_iff.mp taken').1
    have needed := (isPlainExtra_single (l := task.language) live _ right).trans taken'
    have needed' := (isPlainExtra_single (l := task.language) live' _
      (ahead.isError.trans right)).trans taken
    have calls := leads _ closes
    refine answered_facing founded legacy hands reached free ⟨position, ambiguousFor, recovery,
      ahead, right, needed, needed', ?_, fun t ht => ?_⟩
    · exact reduceAll_leads ahead.symbol live' live unforked (ahead.symbol ▸ calls)
        (free.enough (ahead.isError.trans right) needed')
    · rw [single] at ht
      obtain rfl := (List.cons.inj ht).1
      exact ⟨s', single', calls, same⟩

theorem answered_turn (level : Level task r r') : Answered task fuel r' (r.turn task) := by
  cases level with
  | alike alike => exact answered_alike founded legacy hands reached free alike
  | behind single single' unforked position ambiguousFor recovery leads handover =>
    exact answered_behind founded legacy hands reached free single single' unforked position
      ambiguousFor recovery leads handover

omit reached free

/-- Both parses come to roots of one gist, if the one with an old tree has as many turns left. -/
theorem gist_ending : ∀ (fuel fuel' : Nat) {r r' : Run} {tokens : List Lookahead},
    Reached task (some root) tokens r → Unhindered task fuel' r' → Level task r r' →
      fuel' ≤ fuel → (ending task fuel' r').root.gist = (ending task fuel r).root.gist := by
  intro fuel
  induction fuel with
  | zero =>
    intro fuel' r r' tokens reached free level more
    obtain ⟨_, rfl⟩ := free.exists_fuel
    omega
  | succ fuel ih =>
    intro fuel' r r' tokens reached free level more
    have answered := answered_turn founded legacy hands reached free level
    generalize turn : r.turn task = flow at answered
    cases answered with
    | more free' fewer same level' =>
      rw [same, ending_more turn]
      exact ih _ (reached.turn turn) free' level' (by omega)
    | done same =>
      rw [same, ending_done turn]

end Turn

end Run

end Glr
