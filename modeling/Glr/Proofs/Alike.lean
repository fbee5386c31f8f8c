import Glr.Parser.Basic
import Glr.Proofs.Gists
import Glr.Proofs.Limits
import Glr.Proofs.Turns

/-!
# Parses that cannot be told apart

Two parses of one text that have come to stacks of one gist, at one place and with the same repairs
behind them, go on alike: whatever the one does next the other does too, and the roots that they
come to have one gist.  That is shown function by function.  Which token is ahead is given here; the
two may have come by it in different ways, and all that counts is that their leaves have one gist.

What was reported, counted or found in an old tree has no say in anything.
-/

namespace Glr

namespace Run

/-- Two states of a parse that go on alike if the same tokens are ahead. -/
structure Alike (r r' : Run) : Prop where
  live : r.live.map Stack.gist = r'.live.map Stack.gist
  position : r.position = r'.position
  ambiguousFor : r.ambiguousFor = r'.ambiguousFor
  recovery : r.recovery = r'.recovery

namespace Alike

variable {r r' r'' : Run}

theorem refl (r : Run) : Alike r r := ⟨rfl, rfl, rfl, rfl⟩

theorem symm (h : Alike r r') : Alike r' r :=
  ⟨h.live.symm, h.position.symm, h.ambiguousFor.symm, h.recovery.symm⟩

theorem trans (h : Alike r r') (h' : Alike r' r'') : Alike r r'' :=
  ⟨h.live.trans h'.live, h.position.trans h'.position, h.ambiguousFor.trans h'.ambiguousFor,
    h.recovery.trans h'.recovery⟩

/-- Work on both that changes neither. -/
theorem both {s s' : Run} (h : Alike r r') (own : Alike r s) (own' : Alike r' s') : Alike s s' :=
  own.symm.trans (h.trans own')

theorem report (r : Run) (l : Limit) : Alike r (r.report l) := by
  rw [Run.report]
  split
  · exact refl r
  · exact ⟨rfl, rfl, rfl, rfl⟩

theorem noteRepair (r : Run) (problem : Problem) (span : Span) :
    Alike r (r.noteRepair problem span) := ⟨rfl, rfl, rfl, rfl⟩

theorem noting {α : Type} (r : Run) (c : Checked α) : Alike r (r.noting c) := ⟨rfl, rfl, rfl, rfl⟩

theorem reduce (r : Run) (l : Language) (s : Stack) (id : ProductionId) (la : Lookahead)
    (fragile : Bool) : Alike r (r.reduce l s id la fragile).2 := by
  rw [Run.reduce]
  split
  · exact refl r
  · exact ⟨rfl, rfl, rfl, rfl⟩

theorem framing : Framing Alike := ⟨refl, trans, report, reduce⟩

theorem makeLeaf (r : Run) (la : Lookahead) (state : StateId) (flags : NodeFlags) :
    Alike r (r.makeLeaf la state flags).2 := by
  rw [Run.makeLeaf]
  split
  · split
    · exact ⟨rfl, rfl, rfl, rfl⟩
    · exact ⟨rfl, rfl, rfl, rfl⟩
  · exact ⟨rfl, rfl, rfl, rfl⟩

theorem length_eq (h : Alike r r') : r.live.length = r'.live.length := by
  have := congrArg List.length h.live
  rwa [List.length_map, List.length_map] at this

end Alike

end Run

/-- Two ways to have a token ahead that make no difference: the leaves made of it have one gist. -/
structure Lookahead.Alike (la la' : Lookahead) : Prop where
  symbol : la.token.symbol = la'.token.symbol
  span : la.token.span = la'.token.span
  isError : la.token.isError = la'.token.isError
  start : la.start = la'.start
  stop : la.stop = la'.stop
  leaf : ∀ (r r' : Run) (state state' : StateId) (flags : NodeFlags), flags.missing = false →
    (r.makeLeaf la state flags).1.gist = (r'.makeLeaf la' state' flags).1.gist

namespace Lookahead.Alike

variable {la la' la'' : Lookahead}

theorem symm (h : Alike la la') : Alike la' la :=
  ⟨h.symbol.symm, h.span.symm, h.isError.symm, h.start.symm, h.stop.symm,
    fun r r' state state' flags plain => (h.leaf r' r state' state flags plain).symm⟩

theorem trans (h : Alike la la') (h' : Alike la' la'') : Alike la la'' :=
  ⟨h.symbol.trans h'.symbol, h.span.trans h'.span, h.isError.trans h'.isError,
    h.start.trans h'.start, h.stop.trans h'.stop,
    fun r r' state state' flags plain =>
      (h.leaf r r state state flags plain).trans (h'.leaf r r' state state' flags plain)⟩

theorem isEnd (h : Alike la la') : la.token.isEnd = la'.token.isEnd := by
  rw [Token.isEnd, h.symbol, Token.isEnd]

end Lookahead.Alike

/-- What comes out of the reductions on a token, by the gists of the stacks. -/
structure Phase.Alike (p p' : Phase) : Prop where
  shifts : p.shifts.map (fun m => (m.1.gist, m.2)) = p'.shifts.map fun m => (m.1.gist, m.2)
  accepted : p.accepted.map Stack.gist = p'.accepted.map Stack.gist
  failed : p.failed.map Stack.gist = p'.failed.map Stack.gist

theorem Phase.Alike.reversed {p p' : Phase} (h : p.Alike p') :
    Phase.Alike ⟨p.shifts.reverse, p.accepted.reverse, p.failed.reverse⟩
      ⟨p'.shifts.reverse, p'.accepted.reverse, p'.failed.reverse⟩ := by
  refine ⟨?_, ?_, ?_⟩
  · rw [List.map_reverse, List.map_reverse, h.shifts]
  · rw [List.map_reverse, List.map_reverse, h.accepted]
  · rw [List.map_reverse, List.map_reverse, h.failed]

/-- A turn after which both parses go on, or both end. -/
inductive Flow.Alike : Flow → Flow → Prop where
  | more {r r' : Run} (alike : r.Alike r') : Flow.Alike (.more r) (.more r')
  | done {root root' : Green} {r r' : Run} (root_eq : root.gist = root'.gist) :
      Flow.Alike (.done root r) (.done root' r')

namespace Run

variable {r r' : Run} {la la' : Lookahead} {s s' : Stack}

/-! ## Repairs -/

theorem openError?_gist (s : Stack) : Repair.openError? s.gist =
    (Repair.openError? s).map fun (children, below) =>
      (children.map Green.gist, below.map StackEntry.gist) := by
  have plain : ∀ e : StackEntry, Repair.isPlainExtra e.gist = Repair.isPlainExtra e := fun e => by
    show (e.extra && !e.node.gist.isError) = _
    rw [Green.isError_gist]
    rfl
  have plain' : Repair.isPlainExtra ∘ StackEntry.gist = Repair.isPlainExtra := funext plain
  have entries : s.gist.entries = s.entries.map StackEntry.gist := rfl
  rw [Repair.openError?, Repair.openError?, entries, List.takeWhile_map, List.dropWhile_map, plain']
  cases s.entries.dropWhile Repair.isPlainExtra with
  | nil => rfl
  | cons e below =>
    have wrong : e.gist.node.isError = e.node.isError := Green.isError_gist _
    have leaf : e.gist.node.isLeaf = e.node.isLeaf := Green.isLeaf_gist _
    have extra : e.gist.extra = e.extra := rfl
    rw [List.map_cons]
    dsimp only
    rw [wrong, leaf, extra]
    split
    · rw [Stack.gist_gist_entry, Green.children_gist]
      simp [List.map_reverse]
    · rfl

theorem gist_pushExtra_congr {g h : Green} (same : s.gist = s'.gist) (node : g.gist = h.gist)
    (stop stop' : Position) (cost : Nat) :
    ((s.push ⟨s.state, g, stop, true⟩).charge cost).gist =
      ((s'.push ⟨s'.state, h, stop', true⟩).charge cost).gist := by
  rw [Stack.gist_charge, Stack.gist_charge, Stack.state_congr same,
    Stack.gist_push_congr same node s'.state stop stop']

/-- An error of one gist is pushed on what is below on stacks of one gist. -/
theorem gist_pushError_congr {b b' : Stack} {gs gs' : List Green} (below : b.gist = b'.gist)
    (same : gs.map Green.gist = gs'.map Green.gist) (stop stop' : Position) (cost : Nat) :
    ((b.push ⟨b.state, (Repair.errorNode gs).value, stop, true⟩).charge cost).gist =
      ((b'.push ⟨b'.state, (Repair.errorNode gs').value, stop', true⟩).charge cost).gist :=
  gist_pushExtra_congr below (Repair.gist_errorNode_congr same) stop stop' cost

theorem skip_congr {leaf leaf' : Green} {cost : Nat} (same : s.gist = s'.gist)
    (token : leaf.gist = leaf'.gist) (stop stop' : Position) :
    (Repair.skip s leaf stop cost).value.gist = (Repair.skip s' leaf' stop' cost).value.gist := by
  have opened := (openError?_gist s).symm.trans ((congrArg _ same).trans (openError?_gist s'))
  rw [Repair.skip, Repair.skip]
  rcases open? : Repair.openError? s with _ | ⟨children, below⟩
  · rcases open?' : Repair.openError? s' with _ | ⟨children', below'⟩
    · exact gist_pushError_congr same (by simp [token]) stop stop' cost
    · rw [open?, open?'] at opened
      cases opened
  · rcases open?' : Repair.openError? s' with _ | ⟨children', below'⟩
    · rw [open?, open?'] at opened
      cases opened
    · rw [open?, open?'] at opened
      obtain ⟨children_eq, below_eq⟩ := Prod.mk.inj (Option.some.inj opened)
      refine gist_pushError_congr ?_ ?_ stop stop' cost
      · show ({ s.gist with entries := below.map StackEntry.gist } : Stack) =
          { s'.gist with entries := below'.map StackEntry.gist }
        rw [same, below_eq]
      · rw [List.map_append, List.map_append, children_eq, List.map_singleton,
          List.map_singleton, token]

theorem wrapFrom_congr {l : Language} {t : Symbol} {allowed : Nat} (same : s.gist = s'.gist) :
    ∀ {es es' : List StackEntry} {wrapped wrapped' : List Green} (depth : Nat),
      es.map StackEntry.gist = es'.map StackEntry.gist →
      wrapped.map Green.gist = wrapped'.map Green.gist →
      (Repair.wrapFrom l s t wrapped depth allowed es).map (·.value.1.gist) =
        (Repair.wrapFrom l s' t wrapped' depth allowed es').map (·.value.1.gist)
  | [], [], _, _, _, _, _ => rfl
  | [], _ :: _, _, _, _, entries, _ => by cases entries
  | _ :: _, [], _, _, _, entries, _ => by cases entries
  | e :: es, e' :: es', wrapped, wrapped', depth, entries, inside => by
    obtain ⟨top, below⟩ := List.cons.inj entries
    have node : e.node.gist = e'.node.gist := congrArg StackEntry.node top
    have base : Stack.gist { s with entries := es } = Stack.gist { s' with entries := es' } := by
      show ({ s.gist with entries := es.map StackEntry.gist } : Stack) =
        { s'.gist with entries := es'.map StackEntry.gist }
      rw [same, below]
    have more : (e.node :: wrapped).map Green.gist = (e'.node :: wrapped').map Green.gist := by
      rw [List.map_cons, List.map_cons, node, inside]
    rw [Repair.wrapFrom, Repair.wrapFrom]
    dsimp only
    split
    · rfl
    · by_cases acts : l.hasActions (Stack.state { s with entries := es }) t = true
      · rw [if_pos acts, if_pos (Stack.state_congr base ▸ acts)]
        exact congrArg some (gist_pushError_congr base more _ _ _)
      · rw [if_neg acts, if_neg (Stack.state_congr base ▸ acts)]
        exact wrapFrom_congr same (depth + 1) below more

theorem wrap_congr {l : Language} {t : Symbol} {allowed : Nat} (same : s.gist = s'.gist) :
    (Repair.wrap l s t allowed).map (·.value.1.gist) =
      (Repair.wrap l s' t allowed).map (·.value.1.gist) :=
  wrapFrom_congr same 0 (Stack.entries_congr same) rfl

/-- A reduction that is made in a parse is one on gists. -/
theorem reduce_gist (l : Language) (r : Run) (s : Stack) (id : ProductionId) (la : Lookahead)
    (fragile : Bool) :
    (r.reduce l s id la fragile).1.map Stack.gist = s.gist.folded? l id fragile := by
  rw [reduce, Stack.folded?_gist l s id la]
  cases s.reduce? l id la fragile <;> rfl

theorem driveTo_congr {l : Language} (t : Symbol) : ∀ (fuel : Nat) {s s' : Stack} {r r' : Run},
    s.gist = s'.gist →
      (driveTo l la t fuel s r).1.map (fun m => (m.1.gist, m.2)) =
        (driveTo l la' t fuel s' r').1.map fun m => (m.1.gist, m.2) := by
  intro fuel
  induction fuel with
  | zero =>
    intro s s' r r' same
    rw [driveTo.eq_def, driveTo.eq_def]
    dsimp only
    rw [Stack.state_congr same]
    split
    · exact congrArg (fun g => some (g, _)) same
    · next contra => cases contra
    · rfl
  | succ fuel ih =>
    intro s s' r r' same
    rw [driveTo.eq_def, driveTo.eq_def]
    dsimp only
    rw [Stack.state_congr same]
    split
    · exact congrArg (fun g => some (g, _)) same
    · next id _ _ eq =>
      cases eq
      have folded : (r.reduce l s id la true).1.map Stack.gist =
          (r'.reduce l s' id la' true).1.map Stack.gist := by
        rw [reduce_gist, reduce_gist, same]
      generalize r.reduce l s id la true = result at folded ⊢
      generalize r'.reduce l s' id la' true = result' at folded ⊢
      obtain ⟨_ | reduced, r₁⟩ := result <;> obtain ⟨_ | reduced', r₁'⟩ := result'
      · rfl
      · cases folded
      · cases folded
      · exact ih (Option.some.inj folded)
    · rfl

theorem pushMissing_congr {l : Language} (same : s.gist = s'.gist) (t : Symbol) (target : StateId)
    (place place' : Position) :
    (pushMissing l s t target place).gist = (pushMissing l s' t target place').gist := by
  rw [pushMissing, pushMissing, Stack.gist_charge, Stack.gist_charge]
  refine congrArg (Stack.charge · _) (Stack.gist_push_congr same ?_ _ _ _ _)
  exact (Green.gist_leaf _).trans (Green.gist_leaf _).symm

theorem insertMissing_congr {l : Language} (symbol : la.token.symbol = la'.token.symbol)
    (same : s.gist = s'.gist) : ∀ (terminals : List Symbol) (r r' : Run),
      (insertMissing l la s r terminals).1.map (fun m => (m.1.gist, m.2)) =
        (insertMissing l la' s' r' terminals).1.map fun m => (m.1.gist, m.2) := by
  intro terminals
  induction terminals with
  | nil => exact fun _ _ => rfl
  | cons t ts ih =>
    intro r r'
    rw [insertMissing, insertMissing, symbol]
    split
    · exact ih r r'
    · have driven : (driveTo l la t maxMissingReductions s r).1.map (fun m => (m.1.gist, m.2)) =
          (driveTo l la' t maxMissingReductions s' r').1.map fun m => (m.1.gist, m.2) :=
        driveTo_congr t maxMissingReductions same
      generalize driveTo l la t maxMissingReductions s r = result at driven ⊢
      generalize driveTo l la' t maxMissingReductions s' r' = result' at driven ⊢
      obtain ⟨_ | ⟨reduced, next⟩, r₁⟩ := result <;>
        obtain ⟨_ | ⟨reduced', next'⟩, r₁'⟩ := result'
      · exact ih r₁ r₁'
      · cases driven
      · cases driven
      · obtain ⟨stack, rfl⟩ := Prod.mk.inj (Option.some.inj driven)
        dsimp only
        split
        · exact congrArg (fun g => some (g, t)) (pushMissing_congr stack t next _ _)
        · exact ih r₁ r₁'

/-- What a step of a repair comes to: a repaired stack, if there is one, and the state after it. -/
structure MendedAlike (m m' : Option Stack × Run) : Prop where
  stack : m.1.map Stack.gist = m'.1.map Stack.gist
  run : m.2.Alike m'.2

/-- Where the one way gives nothing another is tried. -/
theorem MendedAlike.orElse {m m' : Option Stack × Run} {f f' : Run → Option Stack × Run} :
    MendedAlike m m' → (∀ {r r' : Run}, r.Alike r' → MendedAlike (f r) (f' r')) → MendedAlike
      (match m with
        | (some s, r) => (some s, r)
        | (none, r) => f r)
      (match m' with
        | (some s, r) => (some s, r)
        | (none, r) => f' r) := by
  intro h next
  obtain ⟨_ | s, r⟩ := m <;> obtain ⟨_ | s', r'⟩ := m'
  · exact next h.run
  · cases h.stack
  · cases h.stack
  · exact h

theorem tryMissing_congr {l : Language} (h : r.Alike r')
    (symbol : la.token.symbol = la'.token.symbol) (same : s.gist = s'.gist) :
    MendedAlike (tryMissing l la s r) (tryMissing l la' s' r') := by
  have inserted := insertMissing_congr (l := l) symbol same
    ((l.stateActions s.state).map (·.1)) r r'
  have own := Alike.framing.insertMissing l la s ((l.stateActions s.state).map (·.1)) r
  have own' := Alike.framing.insertMissing l la' s' ((l.stateActions s.state).map (·.1)) r'
  rw [tryMissing, tryMissing, ← Stack.state_congr same]
  dsimp only
  generalize insertMissing l la s r _ = result at inserted own ⊢
  generalize insertMissing l la' s' r' _ = result' at inserted own' ⊢
  obtain ⟨_ | ⟨repaired, t⟩, r₁⟩ := result <;> obtain ⟨_ | ⟨repaired', t'⟩, r₁'⟩ := result'
  · exact ⟨rfl, h.both own own'⟩
  · cases inserted
  · cases inserted
  · obtain ⟨stack, rfl⟩ := Prod.mk.inj (Option.some.inj inserted)
    exact ⟨congrArg some stack,
      (h.both own own').both (.noteRepair _ _ _) (.noteRepair _ _ _)⟩

theorem tryWrap_congr {l : Language} (h : r.Alike r')
    (symbol : la.token.symbol = la'.token.symbol) (same : s.gist = s'.gist) (allowed : Nat) :
    MendedAlike (tryWrap l la s allowed r) (tryWrap l la' s' allowed r') := by
  have wrapped : (Repair.wrap l s la.token.symbol allowed).map (·.value.1.gist) =
      (Repair.wrap l s' la.token.symbol allowed).map (·.value.1.gist) := wrap_congr same
  rw [tryWrap, tryWrap, ← symbol]
  generalize Repair.wrap l s la.token.symbol allowed = result at wrapped ⊢
  generalize Repair.wrap l s' la.token.symbol allowed = result' at wrapped ⊢
  rcases result with _ | c <;> rcases result' with _ | c'
  · exact ⟨rfl, h⟩
  · cases wrapped
  · cases wrapped
  · exact ⟨wrapped, h.both ⟨rfl, rfl, rfl, rfl⟩ ⟨rfl, rfl, rfl, rfl⟩⟩

theorem tryInPlace_congr {task : ParseTask} (h : r.Alike r') (ahead : la.Alike la')
    (same : s.gist = s'.gist) :
    MendedAlike (tryInPlace task la s r) (tryInPlace task la' s' r') := by
  have depth : s.depth = s'.depth := by rw [← Stack.depth_gist s, same, Stack.depth_gist]
  rw [tryInPlace, tryInPlace, ← ahead.isEnd, depth]
  have attempts : r.recovery.attempts = r'.recovery.attempts := by rw [h.recovery]
  by_cases few : r.recovery.attempts < task.config.maxRecoveryAttempts
  · have few' := attempts ▸ few
    rw [if_pos few, if_pos few']
    have counted : Alike { r with recovery.attempts := r.recovery.attempts + 1 }
        { r' with recovery.attempts := r'.recovery.attempts + 1 } :=
      ⟨h.live, h.position, h.ambiguousFor, by
        show ({ r.recovery with attempts := r.recovery.attempts + 1 } : RecoveryState) =
          { r'.recovery with attempts := r'.recovery.attempts + 1 }
        rw [h.recovery]⟩
    have missing := tryMissing_congr (l := task.language) counted ahead.symbol same
    exact missing.orElse fun h' => tryWrap_congr h' ahead.symbol same _
  · have many' := attempts ▸ few
    rw [if_neg few, if_neg many']
    exact ⟨rfl, h⟩

/-! ## Ends -/

theorem remains_congr {task : ParseTask} (h : r.Alike r') :
    (r.remains task).map Green.gist = (r'.remains task).map Green.gist := by
  have best : (Frontier.best? r.live).map Stack.gist = (Frontier.best? r'.live).map Stack.gist := by
    rw [← Frontier.best?_gists, h.live, Frontier.best?_gists]
  have nodes : (standing r.live).map Green.gist = (standing r'.live).map Green.gist := by
    rw [standing, standing]
    generalize Frontier.best? r.live = b at best ⊢
    generalize Frontier.best? r'.live = b' at best ⊢
    rcases b with _ | s <;> rcases b' with _ | s'
    · rfl
    · cases best
    · cases best
    · have entries := Stack.entries_congr (Option.some.inj best)
      show (nodesOf s.entries).map Green.gist = (nodesOf s'.entries).map Green.gist
      rw [← Stack.nodesOf_gists, entries, Stack.nodesOf_gists]
  rw [remains_eq, remains_eq, ← h.position]
  split
  · rw [List.map_append, List.map_append, nodes]
  · exact nodes

theorem wrapRemains_congr {task : ParseTask} (h : r.Alike r') (problem problem' : Problem) :
    (r.wrapRemains task problem).1.gist = (r'.wrapRemains task problem').1.gist :=
  Repair.gist_errorNode_congr (remains_congr h)

theorem giveUp_congr {task : ParseTask} (h : r.Alike r') :
    (r.giveUp task).Alike (r'.giveUp task) :=
  have counted : r.countRecovered.Alike r'.countRecovered :=
    ⟨h.live, h.position, h.ambiguousFor, h.recovery⟩
  .done (wrapRemains_congr counted .incomplete .incomplete)

theorem resume_congr (h : r.Alike r') (same : s.gist = s'.gist) :
    (resume r s).Alike (resume r' s') :=
  .more ⟨congrArg (fun g => [g]) same, h.position, h.ambiguousFor, h.recovery⟩

theorem sealRest_congr {task : ParseTask} (h : r.Alike r') (ahead : la.Alike la')
    (same : s.gist = s'.gist) : (sealRest task la s r).Alike (sealRest task la' s' r') := by
  rw [sealRest, sealRest, ← ahead.start]
  exact .more ⟨congrArg (fun g => [g]) (skip_congr same rfl _ _), rfl, h.ambiguousFor, h.recovery⟩

theorem skipToken_congr {l : Language} (h : r.Alike r') (ahead : la.Alike la')
    (same : s.gist = s'.gist) : (skipToken l la s r).Alike (skipToken l la' s' r') := by
  have leaf := ahead.leaf
    (noteRepair { r with recovery.skipped := r.recovery.skipped + 1 }
      (.skipped (l.symbolName la.token.symbol)) la.token.span)
    (noteRepair { r' with recovery.skipped := r'.recovery.skipped + 1 }
      (.skipped (l.symbolName la'.token.symbol)) la'.token.span) s.state s'.state NodeFlags.none rfl
  have made := Alike.makeLeaf
    (noteRepair { r with recovery.skipped := r.recovery.skipped + 1 }
      (.skipped (l.symbolName la.token.symbol)) la.token.span) la s.state NodeFlags.none
  have made' := Alike.makeLeaf
    (noteRepair { r' with recovery.skipped := r'.recovery.skipped + 1 }
      (.skipped (l.symbolName la'.token.symbol)) la'.token.span) la' s'.state NodeFlags.none
  have counted : Alike
      (noteRepair { r with recovery.skipped := r.recovery.skipped + 1 }
        (.skipped (l.symbolName la.token.symbol)) la.token.span)
      (noteRepair { r' with recovery.skipped := r'.recovery.skipped + 1 }
        (.skipped (l.symbolName la'.token.symbol)) la'.token.span) :=
    ⟨h.live, h.position, h.ambiguousFor, by
      show ({ r.recovery with skipped := r.recovery.skipped + 1 } : RecoveryState) =
        { r'.recovery with skipped := r'.recovery.skipped + 1 }
      rw [h.recovery]⟩
  have both := counted.both made made'
  rw [skipToken, skipToken]
  exact .more ⟨congrArg (fun g => [g]) (skip_congr same leaf _ _), ahead.stop, both.ambiguousFor,
    both.recovery⟩

theorem giveWay_congr {task : ParseTask} (h : r.Alike r') (ahead : la.Alike la')
    (same : s.gist = s'.gist) : (giveWay task la s r).Alike (giveWay task la' s' r') := by
  have depth : s.depth = s'.depth := by rw [← Stack.depth_gist s, same, Stack.depth_gist]
  have skipped : r.recovery.skipped = r'.recovery.skipped := by rw [h.recovery]
  rw [giveWay, giveWay, ← ahead.isEnd, depth]
  split
  · have wrapped := tryWrap_congr (l := task.language) h ahead.symbol same s'.depth
    generalize tryWrap task.language la s s'.depth r = result at wrapped ⊢
    generalize tryWrap task.language la' s' s'.depth r' = result' at wrapped ⊢
    obtain ⟨_ | repaired, r₁⟩ := result <;> obtain ⟨_ | repaired', r₁'⟩ := result'
    · have run := wrapped.run
      exact giveUp_congr ⟨congrArg (fun g => [g]) same, run.position, run.ambiguousFor,
        run.recovery⟩
    · cases wrapped.stack
    · cases wrapped.stack
    · exact resume_congr wrapped.run (Option.some.inj wrapped.stack)
  · by_cases many : r.recovery.skipped ≥ task.config.maxSkipTokens
    · rw [if_pos many, if_pos (skipped ▸ many)]
      exact sealRest_congr h ahead same
    · rw [if_neg many, if_neg (skipped ▸ many)]
      exact skipToken_congr h ahead same

theorem atPlace_congr (h : r.Alike r') (place : Nat) :
    (r.atPlace place).Alike (r'.atPlace place) := by
  rw [atPlace, atPlace, ← h.recovery]
  split
  · exact h
  · exact ⟨h.live, h.position, h.ambiguousFor, rfl⟩

theorem recover_congr {task : ParseTask} {failed failed' : List Stack} (h : r.Alike r')
    (ahead : la.Alike la') (same : failed.map Stack.gist = failed'.map Stack.gist) :
    (r.recover task la failed).Alike (r'.recover task la' failed') := by
  have best : (Frontier.best? failed).map Stack.gist = (Frontier.best? failed').map Stack.gist := by
    rw [← Frontier.best?_gists, same, Frontier.best?_gists]
  rw [recover, recover]
  generalize Frontier.best? failed = b at best ⊢
  generalize Frontier.best? failed' = b' at best ⊢
  rcases b with _ | s <;> rcases b' with _ | s'
  · exact giveUp_congr h
  · cases best
  · cases best
  · have stack := Option.some.inj best
    have repaired : MendedAlike (tryInPlace task la s (r.atPlace la.start.offset))
        (tryInPlace task la' s' (r'.atPlace la.start.offset)) :=
      tryInPlace_congr (atPlace_congr h la.start.offset) ahead stack
    dsimp only
    rw [← ahead.start]
    generalize tryInPlace task la s _ = result at repaired ⊢
    generalize tryInPlace task la' s' _ = result' at repaired ⊢
    obtain ⟨_ | repaired, r₁⟩ := result <;> obtain ⟨_ | repaired', r₁'⟩ := result'
    · exact giveWay_congr repaired.run ahead stack
    · cases repaired.stack
    · cases repaired.stack
    · exact resume_congr repaired.run (Option.some.inj repaired.stack)

theorem accept_congr (l : Language) (same : s.gist = s'.gist) :
    (accept l s).value.gist = (accept l s').value.gist := by
  have inner : ∀ s : Stack, (accept l s).value.gist = (accept l s.gist).value.gist := by
    intro s
    have entries : s.gist.entries.reverse = s.entries.reverse.map StackEntry.gist :=
      (List.map_reverse ..).symm
    have nodes : s.nodes.map Green.gist = s.gist.nodes.map Green.gist := by
      show (nodesOf s.entries).map Green.gist = (nodesOf (s.entries.map StackEntry.gist)).map _
      rw [Stack.nodesOf_gists, List.map_map]
      exact List.map_congr_left fun g _ => (Green.gist_gist g).symm
    have same : ∀ es : List StackEntry, (es.map (·.node)).map Green.gist =
        ((es.map StackEntry.gist).map (·.node)).map Green.gist := by
      intro es
      rw [List.map_map, List.map_map, List.map_map]
      exact List.map_congr_left fun e _ => (Green.gist_gist e.node).symm
    rw [accept, accept, entries]
    rw [Stack.takeWhile_extra_gists, Stack.dropWhile_extra_gists]
    cases s.entries.reverse.dropWhile (·.extra) with
    | nil => exact Repair.gist_errorNode_congr nodes
    | cons main after =>
      have plain : (after.map StackEntry.gist).all (·.extra) = after.all (·.extra) := by
        rw [List.all_map]
        rfl
      have symbol : main.gist.node.symbol = main.node.symbol := Green.symbol_gist _
      rw [List.map_cons]
      dsimp only
      rw [plain, symbol, List.isEmpty_map, List.isEmpty_map]
      split
      · split
        · exact (Green.gist_gist _).symm
        · refine Green.gist_withChildren_congr (Green.gist_gist _).symm ?_
          rw [List.map_append, List.map_append, List.map_append, List.map_append, same, same after,
            Stack.gist_gist_entry, Green.children_gist, List.map_map (f := Green.gist)]
          congr 2
          exact List.map_congr_left fun g _ => (Green.gist_gist g).symm
      · exact Repair.gist_errorNode_congr nodes
  rw [inner, same, ← inner]

/-! ## Pushing the token ahead -/

/-- What is pushed on each of some stacks comes to the same if the stacks have the same gists. -/
theorem map_congr {f f' : Stack → Stack} {live live' : List Stack}
    (same : live.map Stack.gist = live'.map Stack.gist)
    (pushed : ∀ s s' : Stack, s.gist = s'.gist → (f s).gist = (f' s').gist) :
    (live.map f).map Stack.gist = (live'.map f').map Stack.gist := by
  induction live generalizing live' with
  | nil =>
    obtain rfl := List.map_eq_nil_iff.mp same.symm
    rfl
  | cons s live ih =>
    rcases live' with _ | ⟨s', live'⟩
    · cases same
    · obtain ⟨first, rest⟩ := List.cons.inj same
      simp only [List.map_cons, pushed s s' first]
      exact congrArg _ (ih rest)

theorem shiftExtra_congr (h : r.Alike r') (ahead : la.Alike la') (cost : Nat) :
    (r.shiftExtra la cost).Alike (r'.shiftExtra la' cost) := by
  have leaf : (r.makeLeaf la r.firstState
        { NodeFlags.onlyExtra with fragile := r.live.length > 1 }).1.gist =
      (r'.makeLeaf la' r'.firstState
        { NodeFlags.onlyExtra with fragile := r'.live.length > 1 }).1.gist := by
    rw [h.length_eq]
    exact ahead.leaf r r' _ _ _ rfl
  have both := h.both
    (.makeLeaf r la r.firstState { NodeFlags.onlyExtra with fragile := r.live.length > 1 })
    (.makeLeaf r' la' r'.firstState { NodeFlags.onlyExtra with fragile := r'.live.length > 1 })
  exact ⟨map_congr both.live fun s s' same => gist_pushExtra_congr same leaf la.stop la'.stop cost,
    ahead.stop, both.ambiguousFor, both.recovery⟩

theorem takeUnknown_congr {text : Text} (h : r.Alike r') (ahead : la.Alike la') :
    (r.takeUnknown text la).Alike (r'.takeUnknown text la') :=
  shiftExtra_congr (h.both (.noteRepair _ _ _) (.noteRepair _ _ _)) ahead Repair.skipCost

theorem watchAmbiguity_congr (config : ParserConfig) (h : r.Alike r') :
    (r.watchAmbiguity config).Alike (r'.watchAmbiguity config) := by
  rw [watchAmbiguity, watchAmbiguity, ← h.length_eq, ← h.ambiguousFor]
  split
  · split
    · have reported := h.both (.report r (.ambiguity config.maxAmbiguityDepth))
        (.report r' (.ambiguity config.maxAmbiguityDepth))
      refine ⟨?_, reported.position, rfl, reported.recovery⟩
      show (Frontier.collapse _).map Stack.gist = (Frontier.collapse _).map Stack.gist
      rw [← Frontier.collapse_gists, reported.live, Frontier.collapse_gists]
    · exact ⟨h.live, h.position, rfl, h.recovery⟩
  · exact ⟨h.live, h.position, rfl, h.recovery⟩

theorem settle_congr (config : ParserConfig) (h : r.Alike r') :
    (r.settle config).Alike (r'.settle config) := by
  have fresh : (r.live.map fun s => { s with forked := false }).map Stack.gist =
      (r'.live.map fun s => { s with forked := false }).map Stack.gist :=
    map_congr h.live fun s s' same => by
      show ({ s.gist with forked := false } : Stack) = { s'.gist with forked := false }
      rw [same]
  rw [settle, settle]
  dsimp only
  generalize (r.live.map fun s => ({ s with forked := false } : Stack)) = live at fresh ⊢
  generalize (r'.live.map fun s => ({ s with forked := false } : Stack)) = live' at fresh ⊢
  have merged : (Frontier.merge live).map Stack.gist = (Frontier.merge live').map Stack.gist := by
    rw [← Frontier.merge_gists, fresh, Frontier.merge_gists]
  generalize Frontier.merge live = live at merged ⊢
  generalize Frontier.merge live' = live' at merged ⊢
  have pruned : Alike { r with live := Frontier.prune live config.maxStacks }
      { r' with live := Frontier.prune live' config.maxStacks } := by
    refine ⟨?_, h.position, h.ambiguousFor, h.recovery⟩
    show (Frontier.prune _ _).map Stack.gist = (Frontier.prune _ _).map Stack.gist
    rw [← Frontier.prune_gists, merged, Frontier.prune_gists]
  refine watchAmbiguity_congr config ?_
  rw [← Frontier.isCrowded_gists live, merged, Frontier.isCrowded_gists]
  split
  · have reported := pruned.both (.report _ (.parallel config.maxStacks))
      (.report _ (.parallel config.maxStacks))
    exact ⟨reported.live, reported.position, reported.ambiguousFor, reported.recovery⟩
  · exact ⟨pruned.live, pruned.position, pruned.ambiguousFor, pruned.recovery⟩

/-- The state that the leaf of the token ahead is made for is that of some stack. -/
theorem pushToken_live (r : Run) (la : Lookahead) (shifts : List (Stack × StateId)) :
    ∃ state, (r.pushToken la shifts).live = shifts.map fun m => m.1.push ⟨m.2, (r.makeLeaf la state
      (NodeFlags.fragileIf (shifts.length > 1 || shifts.any fun m => m.1.forked))).1, la.stop,
        false⟩ := ⟨_, rfl⟩

/-- A single stack is left as it is, but for what it did on the last token. -/
theorem settle_single (config : ParserConfig) (single : r.live = [s]) :
    (r.settle config).live = [{ s with forked := false }] ∧
      (r.settle config).position = r.position ∧ (r.settle config).ambiguousFor = 0 ∧
        (r.settle config).recovery = r.recovery := by
  have merged (t : Stack) : Frontier.merge [t] = [t] := rfl
  have pruned (t : Stack) : Frontier.prune [t] config.maxStacks = [t] := by
    rw [Frontier.prune]
    split
    · rw [List.mergeSort_singleton, List.take_of_length_le (Nat.le_max_right _ 1)]
    · rfl
  have watched (r : Run) (few : r.live.length ≤ 1) :
      r.watchAmbiguity config = { r with ambiguousFor := 0 } := by
    rw [watchAmbiguity, if_neg (Nat.not_lt.mpr few)]
  rw [settle, single, List.map_singleton]
  generalize ({ s with forked := false } : Stack) = t
  rw [merged, pruned]
  have same := Alike.report { r with live := [t] } (.parallel config.maxStacks)
  have live : (report { r with live := [t] } (.parallel config.maxStacks)).live = [t] := by
    rw [report]
    split <;> rfl
  dsimp only
  split
  · rw [watched]
    · exact ⟨live, same.position.symm, rfl, same.recovery.symm⟩
    · rw [live]
      exact Nat.le_refl 1
  · rw [watched]
    · exact ⟨rfl, rfl, rfl, rfl⟩
    · exact Nat.le_refl 1

section Shifts

variable {shifts shifts' : List (Stack × StateId)}
  (same : shifts.map (fun m => (m.1.gist, m.2)) = shifts'.map fun m => (m.1.gist, m.2))

include same

/-- Whether the leaf of the token is fragile is a matter of gists. -/
theorem fragile_congr : (shifts.length > 1 || shifts.any fun m => m.1.forked) =
    (shifts'.length > 1 || shifts'.any fun m => m.1.forked) := by
  have count := congrArg List.length same
  have forked := congrArg (List.any · fun m => m.1.forked) same
  simp only [List.length_map, List.any_map, Function.comp_def, Stack.forked_gist] at count forked
  rw [count, forked]

/-- The states that the leaf of the token is made for are left out of its gist. -/
theorem pushToken_congr (h : r.Alike r') (ahead : la.Alike la') :
    (r.pushToken la shifts).Alike (r'.pushToken la' shifts') := by
  have leaf : ∀ state state', (r.makeLeaf la state
        (NodeFlags.fragileIf (shifts.length > 1 || shifts.any fun m => m.1.forked))).1.gist =
      (r'.makeLeaf la' state'
        (NodeFlags.fragileIf (shifts'.length > 1 || shifts'.any fun m => m.1.forked))).1.gist := by
    intro state state'
    rw [fragile_congr same]
    exact ahead.leaf r r' _ _ _ rfl
  have both := fun state state' => h.both
    (.makeLeaf r la state
      (NodeFlags.fragileIf (shifts.length > 1 || shifts.any fun m => m.1.forked)))
    (.makeLeaf r' la' state'
      (NodeFlags.fragileIf (shifts'.length > 1 || shifts'.any fun m => m.1.forked)))
  have pushed : ∀ {g g' : Green}, g.gist = g'.gist →
      (shifts.map fun m => m.1.push ⟨m.2, g, la.stop, false⟩).map Stack.gist =
        (shifts'.map fun m => m.1.push ⟨m.2, g', la'.stop, false⟩).map Stack.gist := by
    intro g g' node
    have gists := congrArg
      (List.map fun m : Stack × StateId => m.1.push ⟨m.2, g.gist, Position.start, false⟩) same
    simpa only [List.map_map, Function.comp_def, Stack.gist_push, StackEntry.gist, node] using gists
  exact ⟨pushed (leaf _ _), ahead.stop, (both _ _).ambiguousFor, (both _ _).recovery⟩

end Shifts

/-! ## The work on a token -/

/-- A limit on reductions that has not been reported in the end was not before. -/
theorem framing_enough :
    Framing fun r r' => r'.reported.reductions = false → r.reported.reductions = false where
  refl _ := id
  trans h h' := h ∘ h'
  report r l := by
    rw [report]
    split
    · exact id
    · cases l with
      | reductions =>
        intro enough
        cases enough
      | _ => exact id
  reduce r l s id la fragile := by
    rw [Run.reduce]
    split
    · exact fun enough => enough
    · exact fun enough => enough

/-- A limit is reported from then on. -/
theorem reductions_report (r : Run) (allowed : Nat) :
    (r.report (.reductions allowed)).reported.reductions = true := by
  rw [report]
  split
  · next before => exact before
  · rfl

/-- Work that goes the same way as other work, until it runs out of reductions. -/
structure Work.Alike (w w' : Work) : Prop where
  queue : w.queue.map Stack.gist = w'.queue.map Stack.gist
  phase : w.phase.Alike w'.phase
  budget : w.budget ≤ w'.budget

theorem Work.queue_enqueue (w : Work) (s : Stack) : (w.enqueue s).queue = w.queue ++ [s] := by
  rw [queue, queue, enqueue, List.reverse_cons, List.append_assoc]

theorem gist_branch (s : Stack) (forks : Bool) (index : Nat) :
    (branch s forks index).gist = branch s.gist forks index := by
  cases forks <;> rfl

theorem branch_congr (same : s.gist = s'.gist) (forks : Bool) (index : Nat) :
    (branch s forks index).gist = (branch s' forks index).gist := by
  rw [gist_branch, same, gist_branch]

section Work

variable {task : ParseTask} {ambiguous : Bool} {w w' : Work}

theorem takeAction_congr (h : w.Alike w') (same : s.gist = s'.gist) (action : Action)
    (enough : (takeAction task la ambiguous s (w, r) action).2.reported.reductions = false) :
    (takeAction task la ambiguous s (w, r) action).1.Alike
      (takeAction task la' ambiguous s' (w', r') action).1 := by
  cases action with
  | shift next =>
    refine ⟨h.queue, ⟨?_, h.phase.accepted, h.phase.failed⟩, h.budget⟩
    show (s.gist, next) :: _ = (s'.gist, next) :: _
    rw [same, h.phase.shifts]
  | accept =>
    refine ⟨h.queue, ⟨h.phase.shifts, ?_, h.phase.failed⟩, h.budget⟩
    show s.gist :: _ = s'.gist :: _
    rw [same, h.phase.accepted]
  | reduce id =>
    have budget := h.budget
    simp only [takeAction] at enough ⊢
    split at enough
    · rw [reductions_report] at enough
      cases enough
    · next left =>
      rw [if_neg left, if_neg (show w'.budget ≠ 0 by omega), ← Stack.forked_congr same]
      have reduced : (r.reduce task.language s id la (ambiguous || s.forked)).1.map Stack.gist =
          (r'.reduce task.language s' id la' (ambiguous || s.forked)).1.map Stack.gist := by
        rw [reduce_gist, reduce_gist, same]
      have queue : (Work.queue { w with budget := w.budget - 1 }).map Stack.gist =
          (Work.queue { w' with budget := w'.budget - 1 }).map Stack.gist := h.queue
      generalize r.reduce task.language s id la (ambiguous || s.forked) = result at reduced ⊢
      generalize r'.reduce task.language s' id la' (ambiguous || s.forked) = result' at reduced ⊢
      obtain ⟨_ | t, r₁⟩ := result <;> obtain ⟨_ | t', r₁'⟩ := result'
      · exact ⟨queue, h.phase, Nat.sub_le_sub_right budget 1⟩
      · cases reduced
      · cases reduced
      · refine ⟨?_, h.phase, Nat.sub_le_sub_right budget 1⟩
        rw [Work.queue_enqueue, Work.queue_enqueue, List.map_append, List.map_append, queue,
          List.map_singleton, List.map_singleton, Option.some.inj reduced]

theorem takeActions_congr (same : s.gist = s'.gist) (forks : Bool) :
    ∀ (actions : List Action) {w w' : Work} {r r' : Run} (index : Nat), w.Alike w' →
      (takeActions task la ambiguous s forks (w, r) index actions).2.reported.reductions = false →
      (takeActions task la ambiguous s forks (w, r) index actions).1.Alike
        (takeActions task la' ambiguous s' forks (w', r') index actions).1 := by
  intro actions
  induction actions with
  | nil => exact fun _ h _ => h
  | cons action actions ih =>
    intro w w' r r' index h enough
    have before := framing_enough.takeActions task la ambiguous s forks actions
      (takeAction task la ambiguous (branch s forks index) (w, r) action).1
      (takeAction task la ambiguous (branch s forks index) (w, r) action).2 (index + 1) enough
    exact ih (index + 1)
      (takeAction_congr h (branch_congr same forks index) action before) enough

theorem workOff_of_empty (empty : w.queue = []) (fuel : Nat) :
    (workOff task la ambiguous fuel (w, r)).1 = w := by
  cases fuel with
  | zero => rfl
  | succ fuel =>
    rw [workOff]
    split
    · rfl
    · next taken =>
      rw [(Work.dequeue_spec taken).1] at empty
      cases empty

/-- The same comes out of the reductions on a token for stacks of the same gists, if those with
fewer reductions left have enough of them. -/
theorem workOff_congr (symbol : la.token.symbol = la'.token.symbol) :
    ∀ (fuel fuel' : Nat) {w w' : Work} {r r' : Run}, w.Alike w' →
      w.budget + w.queue.length ≤ fuel → w'.budget + w'.queue.length ≤ fuel' →
      (workOff task la ambiguous fuel (w, r)).2.reported.reductions = false →
      (workOff task la ambiguous fuel (w, r)).1.phase.Alike
        (workOff task la' ambiguous fuel' (w', r')).1.phase := by
  intro fuel
  induction fuel with
  | zero =>
    intro fuel' w w' r r' h room room' enough
    have length := congrArg List.length h.queue
    rw [List.length_map, List.length_map] at length
    rw [workOff_of_empty (w := w') (List.length_eq_zero_iff.mp (by omega))]
    exact h.phase
  | succ fuel ih =>
    intro fuel' w w' r r' h room room' enough
    have length := congrArg List.length h.queue
    rw [List.length_map, List.length_map] at length
    rw [workOff] at enough ⊢
    split at enough
    · next none =>
      rw [Work.dequeue_none none] at length
      rw [workOff_of_empty (w := w') (List.length_eq_zero_iff.mp length.symm)]
      exact h.phase
    · next s w₁ taken =>
      obtain ⟨queue, budget, phase⟩ := Work.dequeue_spec taken
      rw [queue, List.length_cons] at length room
      obtain ⟨fuel', rfl⟩ := Nat.exists_eq_add_of_lt (show 0 < fuel' by omega)
      rw [Nat.zero_add] at room' ⊢
      rw [workOff]
      split
      · next none =>
        rw [Work.dequeue_none none] at length
        cases length
      · next s' w₁' taken' =>
        obtain ⟨queue', budget', phase'⟩ := Work.dequeue_spec taken'
        have queues := h.queue
        rw [queue, queue', List.map_cons, List.map_cons] at queues
        obtain ⟨same, rest⟩ := List.cons.inj queues
        have base : w₁.Alike w₁' :=
          ⟨rest, phase ▸ phase' ▸ h.phase, by rw [budget, budget']; exact h.budget⟩
        rw [queue', List.length_cons] at room'
        dsimp only at enough ⊢
        rw [← symbol, ← Stack.state_congr same]
        split at enough
        · next empty =>
          rw [if_pos empty, if_pos empty]
          have failed : Work.Alike { w₁ with phase.failed := s :: w₁.phase.failed }
              { w₁' with phase.failed := s' :: w₁'.phase.failed } := by
            refine ⟨base.queue, ⟨base.phase.shifts, base.phase.accepted, ?_⟩, base.budget⟩
            show s.gist :: _ = s'.gist :: _
            rw [same, base.phase.failed]
          exact ih fuel' failed (show w₁.budget + w₁.queue.length ≤ fuel by omega)
            (show w₁'.budget + w₁'.queue.length ≤ fuel' by omega) enough
        · next some =>
          rw [if_neg some, if_neg some]
          generalize task.language.actions s.state la.token.symbol = actions at enough ⊢
          have before := framing_enough.workOff task la ambiguous fuel
            (takeActions task la ambiguous s (actions.length > 1) (w₁, r) 0 actions).1
            (takeActions task la ambiguous s (actions.length > 1) (w₁, r) 0 actions).2 enough
          have grows := takeActions_grows task la ambiguous s (actions.length > 1) actions w₁ r 0
          have grows' :=
            takeActions_grows task la' ambiguous s' (actions.length > 1) actions w₁' r' 0
          refine ih fuel' (takeActions_congr same (actions.length > 1) actions 0 base before)
            ?_ ?_ enough
          · have paid := grows.paid
            simp only [Work.queue, List.length_append, List.length_reverse, grows.front] at room ⊢
            omega
          · have paid := grows'.paid
            simp only [Work.queue, List.length_append, List.length_reverse, grows'.front] at room' ⊢
            omega

/-- All that comes out of the reductions on a token is a matter of the gists of the live stacks. -/
theorem reduceAll_congr (symbol : la.token.symbol = la'.token.symbol)
    (same : r.live.map Stack.gist = r'.live.map Stack.gist)
    (enough : (r.reduceAll task la).2.reported.reductions = false) :
    (r.reduceAll task la).1.Alike (r'.reduceAll task la').1 := by
  have length := congrArg List.length same
  rw [List.length_map, List.length_map] at length
  have room : ∀ live : List Stack, (Work.first task live).budget +
      (Work.first task live).queue.length ≤ task.config.maxReductionsPerToken + live.length := by
    intro live
    simp [Work.first, Work.queue]
  have start : (Work.first task r.live).Alike (Work.first task r'.live) :=
    ⟨by simpa [Work.first, Work.queue] using same, ⟨rfl, rfl, rfl⟩, Nat.le_refl _⟩
  rw [reduceAll, reduceAll, ← length]
  exact Phase.Alike.reversed (workOff_congr symbol _ _ start (room _) (length ▸ room _) enough)

theorem reduceAll_alike (r : Run) (la : Lookahead) :
    Alike { r with live := [] } (r.reduceAll task la).2 :=
  Alike.framing.reduceAll task la r

end Work

/-! ## Turns -/

/-- Only the cursor counts for what is taken over, and only that is moved by looking. -/
theorem subtree_unskipped (l : Language) (r : Run) (la : Lookahead)
    (shifts : List (Stack × StateId)) :
    subtree l { r with recovery.skipped := 0 } la shifts =
      ((r.subtree l la shifts).1,
        { r with recovery.skipped := 0, reuse := (r.subtree l la shifts).2.reuse }) := by
  rw [subtree.eq_def, subtree.eq_def]
  split
  · dsimp only
    split
    · rfl
    · rfl
  · rfl

/-- A parse that takes over no subtree pushes the token ahead. -/
theorem shiftAll_of_none {task : ParseTask} {shifts : List (Stack × StateId)}
    (none : (r.subtree task.language la shifts).1 = none) :
    ∃ reuse, r.shiftAll task la shifts =
      (pushToken { r with recovery.skipped := 0, reuse } la shifts).settle task.config := by
  refine ⟨(r.subtree task.language la shifts).2.reuse, ?_⟩
  rw [shiftAll, subtree_unskipped, none]

/-- A parse that takes over a subtree pushes that. -/
theorem shiftAll_of_some {task : ParseTask} {shifts : List (Stack × StateId)} {g : Green}
    {target : StateId} (some : (r.subtree task.language la shifts).1 = some (s, g, target)) :
    ∃ reuse, r.shiftAll task la shifts =
      (pushSubtree { r with recovery.skipped := 0, reuse } la s g target).settle task.config := by
  refine ⟨(r.subtree task.language la shifts).2.reuse, ?_⟩
  rw [shiftAll, subtree_unskipped, some]

theorem shiftAll_congr {task : ParseTask} {shifts shifts' : List (Stack × StateId)}
    (h : r.Alike r') (ahead : la.Alike la')
    (same : shifts.map (fun m => (m.1.gist, m.2)) = shifts'.map fun m => (m.1.gist, m.2))
    (none : (r.subtree task.language la shifts).1 = none)
    (none' : (r'.subtree task.language la' shifts').1 = Option.none) :
    (r.shiftAll task la shifts).Alike (r'.shiftAll task la' shifts') := by
  obtain ⟨reuse, pushes⟩ := shiftAll_of_none none
  obtain ⟨reuse', pushes'⟩ := shiftAll_of_none none'
  rw [pushes, pushes']
  refine settle_congr _ (pushToken_congr same ⟨h.live, h.position, h.ambiguousFor, ?_⟩ ahead)
  show ({ r.recovery with skipped := 0 } : RecoveryState) = { r'.recovery with skipped := 0 }
  rw [h.recovery]

theorem finish_congr (l : Language) (same : s.gist = s'.gist) :
    (r.finish l s).Alike (r'.finish l s') :=
  .done (accept_congr l same)

/-- Where neither parse takes over a subtree both conclude the turn alike. -/
theorem conclude_congr {task : ParseTask} {phase phase' : Phase} (h : r.Alike r')
    (ahead : la.Alike la') (same : phase.Alike phase')
    (own : (r.subtree task.language la phase.shifts).1 = none)
    (own' : (r'.subtree task.language la' phase'.shifts).1 = none) :
    (conclude task la phase r).Alike (conclude task la' phase' r') := by
  have best : (if la.token.isEnd then Frontier.best? phase.accepted else none).map Stack.gist =
      (if la.token.isEnd then Frontier.best? phase'.accepted else none).map Stack.gist := by
    split
    · rw [← Frontier.best?_gists, same.accepted, Frontier.best?_gists]
    · rfl
  have empty : phase.shifts.isEmpty = phase'.shifts.isEmpty := by
    have := congrArg List.isEmpty same.shifts
    rwa [List.isEmpty_map, List.isEmpty_map] at this
  rw [conclude, conclude, ← ahead.isEnd, ← empty]
  generalize (if la.token.isEnd then Frontier.best? phase.accepted else none) = b at best ⊢
  generalize (if la.token.isEnd then Frontier.best? phase'.accepted else none) = b' at best ⊢
  rcases b with _ | s <;> rcases b' with _ | s'
  · dsimp only
    split
    · exact recover_congr h ahead same.failed
    · exact .more (shiftAll_congr h ahead same.shifts own own')
  · cases best
  · cases best
  · exact finish_congr task.language (Option.some.inj best)

end Run

end Glr
