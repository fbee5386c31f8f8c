import Glr.Proofs.Frames
import Glr.Proofs.Reached

/-!
# Without a limit no branch is lost

A limit is reported once, and that leaves a warning; so a parse without a warning of a limit has
not run into it (`Candid`, which every turn keeps).  What follows from that for one token, if enough
reductions were allowed, is that something comes out of the work on it: a stack that is taken off
the queue can do nothing with the token, or has an action on it, and if that is a reduction, which
never fails, the stack is back on the queue.  All that could be lost on the way is what the limit
cuts off.
-/

namespace Glr

/-- Two limits of one kind, whatever is allowed. -/
def Limit.Like (l l' : Limit) : Prop := ∀ r : Reported, r.contains l = r.contains l'

theorem Reported.contains_insert {r : Reported} {l l' : Limit}
    (h : (r.insert l).contains l' = true) : r.contains l' = true ∨ l'.Like l := by
  cases l <;> cases l' <;> first | exact .inl h | exact .inr fun _ => rfl

namespace Run

variable {task : ParseTask} {old : Option Green} {r r' : Run} {la : Lookahead}

/-! ## Warnings of limits -/

/-- Every limit that was reported has left a warning. -/
def Candid (r : Run) : Prop :=
  ∀ l, r.reported.contains l = true → ∃ w ∈ r.warnings, ∃ l', w.problem = .limit l' ∧ l.Like l'

/-- There is no warning of a limit, whatever it allows. -/
def Untold (r : Run) (l : Limit) : Prop :=
  ∀ w ∈ r.warnings, ∀ l', w.problem = .limit l' → ¬ l.Like l'

/-- There is no warning of any limit. -/
def Unlimited (r : Run) : Prop := ∀ w ∈ r.warnings, ∀ l, w.problem ≠ .limit l

theorem Unlimited.untold (unlimited : r.Unlimited) (l : Limit) : r.Untold l :=
  fun w hw l' limit => absurd limit (unlimited w hw l')

/-- Warnings are kept, and a limit that is reported leaves one. -/
structure Tells (r r' : Run) : Prop where
  warnings : ∀ w ∈ r.warnings, w ∈ r'.warnings
  candid : r.Candid → r'.Candid

namespace Tells

theorem refl (r : Run) : Tells r r := ⟨fun _ h => h, id⟩

theorem trans {r'' : Run} (h : Tells r r') (h' : Tells r' r'') : Tells r r'' :=
  ⟨fun w hw => h'.warnings w (h.warnings w hw), h'.candid ∘ h.candid⟩

/-- There were no more warnings of limits before. -/
theorem unlimited (h : Tells r r') (unlimited : r'.Unlimited) : r.Unlimited :=
  fun w hw => unlimited w (h.warnings w hw)

theorem untold {l : Limit} (h : Tells r r') (untold : r'.Untold l) : r.Untold l :=
  fun w hw => untold w (h.warnings w hw)

theorem of_grown (warnings : ∀ w ∈ r.warnings, w ∈ r'.warnings)
    (reported : r'.reported = r.reported) : Tells r r' := by
  refine ⟨warnings, fun candid l hl => ?_⟩
  rw [reported] at hl
  obtain ⟨w, hw, limit⟩ := candid l hl
  exact ⟨w, warnings w hw, limit⟩

theorem of_same (warnings : r'.warnings = r.warnings) (reported : r'.reported = r.reported) :
    Tells r r' := of_grown (fun _ hw => warnings ▸ hw) reported

theorem noteRepair (r : Run) (problem : Problem) (span : Span) :
    Tells r (r.noteRepair problem span) := of_grown (fun _ hw => List.mem_cons_of_mem _ hw) rfl

theorem report (r : Run) (l : Limit) : Tells r (r.report l) := by
  rw [Run.report]
  split
  · exact refl r
  · refine ⟨fun _ hw => List.mem_cons_of_mem _ hw, fun candid l' hl' => ?_⟩
    rcases Reported.contains_insert hl' with before | like
    · obtain ⟨w, hw, limit⟩ := candid l' before
      exact ⟨w, List.mem_cons_of_mem _ hw, limit⟩
    · exact ⟨_, List.mem_cons_self, l, rfl, like⟩

theorem makeLeaf (r : Run) (la : Lookahead) (state : StateId) (flags : NodeFlags) :
    Tells r (r.makeLeaf la state flags).2 := by
  rw [Run.makeLeaf]
  split
  · split
    · exact of_same rfl rfl
    · exact of_same rfl rfl
  · exact of_same rfl rfl

theorem framing : Framing Tells where
  refl := refl
  trans := trans
  report := report
  reduce r l s id la fragile := by
    rw [Run.reduce]
    split
    · exact refl r
    · exact of_same rfl rfl

end Tells

/-- A limit that is reported can be told from the warnings, this time or from before. -/
theorem Candid.not_untold_report (candid : r.Candid) (l : Limit) : ¬ (r.report l).Untold l := by
  intro untold
  rw [report] at untold
  split at untold
  · next before =>
    obtain ⟨w, hw, l', limit, like⟩ := candid l before
    exact untold w hw l' limit like
  · exact untold _ List.mem_cons_self l rfl fun _ => rfl

/-- What the warnings do not tell of has not been reported. -/
theorem Candid.unreported (candid : r.Candid) {l : Limit} (untold : r.Untold l) :
    r.reported.contains l = false :=
  Bool.eq_false_iff.mpr fun reported => by
    obtain ⟨w, hw, l', limit, like⟩ := candid l reported
    exact untold w hw l' limit like

/-! ## All that a turn does -/

/-- What a turn comes to once every stack is reduced. -/
def conclude (task : ParseTask) (la : Lookahead) (phase : Phase) (r : Run) : Flow :=
  match if la.token.isEnd then Frontier.best? phase.accepted else none with
  | some s => r.finish task.language s
  | none =>
    if phase.shifts.isEmpty then r.recover task la phase.failed
    else .more (r.shiftAll task la phase.shifts)

theorem step_eq (task : ParseTask) (la : Lookahead) (r : Run) : r.step task la =
    if la.token.isError then .more (r.takeUnknown task.text la)
    else if r.isPlainExtra task.language la then .more (r.shiftExtra la 0)
    else conclude task la (r.reduceAll task la).1 (r.reduceAll task la).2 := rfl

section Turn

variable (task la)

theorem tells_lookahead (r : Run) : Tells r (r.lookahead task).2 := by
  have leaf : Tells r (r.reusableLeaf task.language).2 := by
    rw [reusableLeaf]
    split
    · exact .of_same rfl rfl
    · exact .refl r
  rw [lookahead]
  generalize r.reusableLeaf task.language = found at leaf ⊢
  obtain ⟨leaf?, r'⟩ := found
  cases leaf? with
  | none => exact leaf.trans (.of_same rfl rfl)
  | some _ => exact leaf.trans (.of_same rfl rfl)

theorem tells_reduceAll (r : Run) : Tells r (r.reduceAll task la).2 := by
  refine .trans ?_ (Tells.framing.reduceAll task la r)
  exact .of_same rfl rfl

theorem tells_shiftExtra (r : Run) (cost : Nat) : Tells r (r.shiftExtra la cost) :=
  .trans (.makeLeaf r la r.firstState { NodeFlags.onlyExtra with fragile := r.live.length > 1 })
    (.of_same rfl rfl)

theorem tells_watchAmbiguity (config : ParserConfig) (r : Run) :
    Tells r (r.watchAmbiguity config) := by
  rw [watchAmbiguity]
  split
  · split
    · exact .trans (.report r _) (.of_same rfl rfl)
    · exact .of_same rfl rfl
  · exact .of_same rfl rfl

theorem tells_settle (config : ParserConfig) (r : Run) : Tells r (r.settle config) := by
  rw [settle]
  dsimp only
  generalize Frontier.merge _ = merged
  have pruned : Tells r { r with live := Frontier.prune merged config.maxStacks } :=
    .of_same rfl rfl
  have crowded : Tells r
      (if Frontier.isCrowded merged config.maxStacks then
        { r with live := Frontier.prune merged config.maxStacks }.report
          (.parallel config.maxStacks)
      else { r with live := Frontier.prune merged config.maxStacks }) := by
    split
    · exact pruned.trans (.report _ _)
    · exact pruned
  refine .trans ?_ (tells_watchAmbiguity config _)
  exact crowded.trans (.of_same rfl rfl)

theorem tells_subtree (l : Language) (r : Run) (shifts : List (Stack × StateId)) :
    Tells r (r.subtree l la shifts).2 := by
  rw [subtree.eq_def]
  split
  · split
    · exact .refl r
    · exact .of_same rfl rfl
  · exact .refl r

theorem tells_shiftAll (r : Run) (shifts : List (Stack × StateId)) :
    Tells r (r.shiftAll task la shifts) := by
  have found := tells_subtree la task.language { r with recovery.skipped := 0 } shifts
  have start : Tells r { r with recovery.skipped := 0 } := .of_same rfl rfl
  rw [shiftAll]
  dsimp only
  generalize subtree task.language { r with recovery.skipped := 0 } la shifts = result at found ⊢
  obtain ⟨found?, r'⟩ := result
  have before := start.trans found
  cases found? with
  | none =>
    refine before.trans (.trans ?_ (tells_settle task.config _))
    exact .trans (.makeLeaf r' la _ _) (.of_same rfl rfl)
  | some m =>
    refine before.trans (.trans ?_ (tells_settle task.config _))
    exact .of_same rfl rfl

theorem tells_abandon (r : Run) : Tells r (r.abandon task).2 :=
  .of_grown (fun _ hw => List.mem_cons_of_mem _ hw) rfl

theorem tells_tryMissing (l : Language) (s : Stack) (r : Run) :
    Tells r (tryMissing l la s r).2 := by
  have inserted := Tells.framing.insertMissing l la s ((l.stateActions s.state).map (·.1)) r
  rw [tryMissing]
  split
  · next eq =>
    rw [eq] at inserted
    exact inserted.trans (.noteRepair _ _ _)
  · next eq =>
    rw [eq] at inserted
    exact inserted

theorem tells_tryWrap (l : Language) (s : Stack) (allowed : Nat) (r : Run) :
    Tells r (tryWrap l la s allowed r).2 := by
  rw [tryWrap]
  split
  · exact .of_grown (fun _ hw => List.mem_cons_of_mem _ hw) rfl
  · exact .refl r

theorem tells_tryInPlace (s : Stack) (r : Run) : Tells r (tryInPlace task la s r).2 := by
  rw [tryInPlace]
  split
  · dsimp only
    have counted : Tells r { r with recovery.attempts := r.recovery.attempts + 1 } :=
      .of_same rfl rfl
    have missing := counted.trans (tells_tryMissing la task.language s _)
    split
    · next eq =>
      rw [eq] at missing
      exact missing
    · next eq =>
      rw [eq] at missing
      exact missing.trans (tells_tryWrap la task.language s _ _)
  · exact .refl r

theorem tells_giveWay (s : Stack) (r : Run) : Tells r (giveWay task la s r).run := by
  rw [giveWay]
  split
  · have wrapped := tells_tryWrap la task.language s s.depth r
    split
    · next eq =>
      rw [eq] at wrapped
      exact wrapped.trans (.of_same rfl rfl)
    · next eq =>
      rw [eq] at wrapped
      exact wrapped.trans (.of_grown (fun _ hw => List.mem_cons_of_mem _ hw) rfl)
  · split
    · exact .of_grown (fun _ hw => List.mem_cons_of_mem _ hw) rfl
    · refine .trans ?_ (.trans (.makeLeaf _ la s.state NodeFlags.none) (.of_same rfl rfl))
      exact .of_grown (fun _ hw => List.mem_cons_of_mem _ hw) rfl

theorem tells_recover (failed : List Stack) (r : Run) :
    Tells r (r.recover task la failed).run := by
  rw [recover]
  split
  · exact tells_abandon task r
  · next s _ =>
    have placed : Tells r (r.atPlace la.start.offset) := by
      rw [atPlace]
      split
      · exact .refl r
      · exact .of_same rfl rfl
    have tried := placed.trans (tells_tryInPlace task la s _)
    split
    · next eq =>
      rw [eq] at tried
      exact tried.trans (.of_same rfl rfl)
    · next eq =>
      rw [eq] at tried
      exact tried.trans (tells_giveWay task la s _)

theorem tells_conclude (phase : Phase) (r : Run) : Tells r (conclude task la phase r).run := by
  rw [conclude]
  split
  · exact .of_same rfl rfl
  · split
    · exact tells_recover task la phase.failed r
    · exact tells_shiftAll task la r phase.shifts

theorem tells_step (r : Run) : Tells r (r.step task la).run := by
  rw [step_eq]
  split
  · exact .trans (.noteRepair r _ _) (tells_shiftExtra la _ _)
  · split
    · exact tells_shiftExtra la r 0
    · exact (tells_reduceAll task la r).trans (tells_conclude task la _ _)

theorem tells_turn (r : Run) : Tells r (r.turn task).run :=
  (tells_lookahead task r).trans (tells_step task _ _)

end Turn

/-- What a turn has reported by the time that every stack is reduced is kept. -/
theorem tells_reduced (wrong : (r.lookahead task).1.token.isError = false)
    (needed : (r.lookahead task).2.isPlainExtra task.language (r.lookahead task).1 = false) :
    Tells ((r.lookahead task).2.reduceAll task (r.lookahead task).1).2 (r.turn task).run := by
  rw [turn]
  dsimp only
  rw [step_eq, if_neg (Bool.eq_false_iff.mp wrong), if_neg (Bool.eq_false_iff.mp needed)]
  exact tells_conclude task _ _ _

theorem Reached.candid {tokens : List Lookahead} (reached : Reached task old tokens r) :
    r.Candid := by
  induction reached with
  | initial =>
    intro l hl
    cases l <;> cases hl
  | @turn r r' tokens reached more ih =>
    have tells := tells_turn task r
    rw [more] at tells
    exact tells.candid ih

/-! ## What comes out of the work on a token -/

/-- Something was put on the queue or sorted out. -/
def Work.Yields (w : Work) : Prop :=
  w.back ≠ [] ∨ w.phase.shifts ≠ [] ∨ w.phase.accepted ≠ []

theorem Work.Grows.yields {w w' : Work} (grows : w.Grows w') (yields : w.Yields) : w'.Yields := by
  have kept {α : Type} {xs ys : List α} (sub : ∀ x ∈ xs, x ∈ ys) (some : xs ≠ []) : ys ≠ [] := by
    obtain ⟨x, hx⟩ := List.exists_mem_of_ne_nil xs some
    exact List.ne_nil_of_mem (sub x hx)
  rcases yields with back | shifts | accepted
  · exact Or.inl (kept grows.back back)
  · exact Or.inr (Or.inl (kept grows.shifts shifts))
  · exact Or.inr (Or.inr (kept grows.accepted accepted))

section Work

variable {ambiguous : Bool}

/-- The reductions that a stack calls for can all be made. -/
def Reducible (task : ParseTask) (la : Lookahead) (s : Stack) : Prop :=
  ∀ id, .reduce id ∈ task.language.actions s.state la.token.symbol →
    ∀ (b : Stack) (fragile : Bool), b.entries = s.entries →
      ∃ c, b.reduce? task.language id la fragile = some c

theorem takeAction_yields {b : Stack} {w : Work} {action : Action} (candid : r.Candid)
    (reduces : ∀ id, action = .reduce id → ∃ c, b.reduce? task.language id la
      (ambiguous || b.forked) = some c)
    (thrifty : (takeAction task la ambiguous b (w, r) action).2.Untold
      (.reductions task.config.maxReductionsPerToken)) :
    (takeAction task la ambiguous b (w, r) action).1.Yields := by
  cases action with
  | shift next => exact Or.inr (Or.inl (List.cons_ne_nil _ _))
  | accept => exact Or.inr (Or.inr (List.cons_ne_nil _ _))
  | reduce id =>
    obtain ⟨c, reduced⟩ := reduces id rfl
    simp only [takeAction] at thrifty ⊢
    split at thrifty
    · exact absurd thrifty (candid.not_untold_report _)
    · next enough =>
      rw [if_neg enough, Run.reduce, reduced]
      exact Or.inl (List.cons_ne_nil _ _)

/-- A stack with an action comes to something. -/
theorem takeActions_yields {s : Stack} {w : Work} (candid : r.Candid)
    (reducible : Reducible task la s)
    (some : task.language.actions s.state la.token.symbol ≠ [])
    (thrifty : (takeActions task la ambiguous s
      ((task.language.actions s.state la.token.symbol).length > 1) (w, r) 0
        (task.language.actions s.state la.token.symbol)).2.Untold
          (.reductions task.config.maxReductionsPerToken)) :
    (takeActions task la ambiguous s
      ((task.language.actions s.state la.token.symbol).length > 1) (w, r) 0
        (task.language.actions s.state la.token.symbol)).1.Yields := by
  have known := reducible
  rw [Reducible] at known
  generalize task.language.actions s.state la.token.symbol = actions at some known thrifty ⊢
  cases actions with
  | nil => exact absurd rfl some
  | cons action actions =>
    generalize decide ((action :: actions).length > 1) = forks at thrifty ⊢
    have frame := Tells.framing.takeActions task la ambiguous s forks actions
      (takeAction task la ambiguous (branch s forks 0) (w, r) action).1
      (takeAction task la ambiguous (branch s forks 0) (w, r) action).2 1
    refine (takeActions_grows task la ambiguous s forks actions _ _ 1).yields
      (takeAction_yields candid (fun id same => ?_) (frame.untold thrifty))
    exact known id (same ▸ List.mem_cons_self) _ _ (entries_branch s forks 0)

/-- Something is still to be done or came out. -/
def Work.Alive (w : Work) : Prop := w.queue ≠ [] ∨ w.Yields ∨ w.phase.failed ≠ []

theorem workOff_alive {P : Stack → Prop}
    (closed : ∀ {s s' : Stack}, P s → Takes task la ambiguous s s' → P s')
    (reducible : ∀ s, P s → Reducible task la s) :
    ∀ (fuel : Nat) {w : Work} {r : Run}, r.Candid → w.budget + w.queue.length ≤ fuel →
      w.From task la P → w.Alive →
      (workOff task la ambiguous fuel (w, r)).2.Untold
        (.reductions task.config.maxReductionsPerToken) →
      (workOff task la ambiguous fuel (w, r)).1.queue = [] ∧
        (workOff task la ambiguous fuel (w, r)).1.Alive := by
  intro fuel
  induction fuel with
  | zero =>
    intro w r _ enough _ alive _
    exact ⟨List.length_eq_zero_iff.mp (show w.queue.length = 0 by omega), alive⟩
  | succ fuel ih =>
    intro w r candid enough known alive thrifty
    rw [workOff] at thrifty ⊢
    split at thrifty
    · next none => exact ⟨Work.dequeue_none none, alive⟩
    · next s w' taken =>
      obtain ⟨queue, budget, -⟩ := Work.dequeue_spec taken
      obtain ⟨hs, rest⟩ := known.dequeue taken
      rw [queue, List.length_cons, ← budget] at enough
      dsimp only at thrifty ⊢
      split at thrifty
      · next empty =>
        rw [if_pos empty]
        have failed : Work.From task la P { w' with phase.failed := s :: w'.phase.failed } :=
          ⟨rest.front, rest.back, rest.phase.shifts, rest.phase.accepted,
            List.forall_mem_cons.mpr ⟨hs, rest.phase.failed⟩⟩
        refine ih candid ?_ failed (Or.inr (Or.inr (List.cons_ne_nil _ _))) thrifty
        show w'.budget + w'.queue.length ≤ fuel
        omega
      · next some =>
        rw [if_neg some]
        have before := (Tells.framing.workOff task la ambiguous fuel _ _).untold thrifty
        have yields := takeActions_yields (w := w') candid (reducible s hs)
          (fun nil => some (List.isEmpty_iff.mpr nil)) before
        have grows := takeActions_grows task la ambiguous s
          ((task.language.actions s.state la.token.symbol).length > 1)
          (task.language.actions s.state la.token.symbol) w' r 0
        have tells := Tells.framing.takeActions task la ambiguous s
          ((task.language.actions s.state la.token.symbol).length > 1)
          (task.language.actions s.state la.token.symbol) w' r 0
        refine ih (tells.candid candid) ?_ (takeActions_from closed hs 0 rest rfl)
          (Or.inr (Or.inl yields)) thrifty
        have paid := grows.paid
        simp only [Work.queue, List.length_append, List.length_reverse, grows.front] at enough ⊢
        omega

variable (task la ambiguous) in
theorem takeActions_failed (s : Stack) (forks : Bool) :
    ∀ (actions : List Action) (w : Work) (r : Run) (index : Nat),
      (takeActions task la ambiguous s forks (w, r) index actions).1.phase.failed =
        w.phase.failed := by
  intro actions
  induction actions with
  | nil => exact fun _ _ _ => rfl
  | cons action actions ih =>
    intro w r index
    refine (ih _ _ (index + 1)).trans ?_
    cases action with
    | shift next => rfl
    | accept => rfl
    | reduce id =>
      dsimp only
      split
      · rfl
      · split <;> rfl

/-- Only stacks that can do nothing with the token fail. -/
theorem workOff_failed : ∀ (fuel : Nat) {w : Work} {r : Run},
    (∀ s ∈ w.phase.failed, task.language.actions s.state la.token.symbol = []) →
      ∀ s ∈ (workOff task la ambiguous fuel (w, r)).1.phase.failed,
        task.language.actions s.state la.token.symbol = [] := by
  intro fuel
  induction fuel with
  | zero => exact fun h => h
  | succ fuel ih =>
    intro w r known
    rw [workOff]
    split
    · exact known
    · next s w' taken =>
      have same := (Work.dequeue_spec taken).2.2
      dsimp only
      split
      · next empty =>
        exact ih (List.forall_mem_cons.mpr ⟨List.isEmpty_iff.mp empty, same ▸ known⟩)
      · refine ih fun t ht => ?_
        rw [takeActions_failed, same] at ht
        exact known t ht

/-- If enough reductions were allowed, something comes out of the work on a token. -/
theorem reduceAll_alive {P : Stack → Prop}
    (closed : ∀ {s s' : Stack}, P s → Takes task la (r.live.length > 1) s s' → P s')
    (reducible : ∀ s, P s → Reducible task la s) (known : ∀ s ∈ r.live, P s)
    (some : r.live ≠ []) (candid : r.Candid)
    (thrifty : (r.reduceAll task la).2.Untold (.reductions task.config.maxReductionsPerToken)) :
    (r.reduceAll task la).1.shifts ≠ [] ∨ (r.reduceAll task la).1.accepted ≠ [] ∨
      (r.reduceAll task la).1.failed ≠ [] := by
  have room : (Work.first task r.live).budget + (Work.first task r.live).queue.length ≤
      task.config.maxReductionsPerToken + r.live.length := by
    simp [Work.first, Work.queue]
  have waiting : (Work.first task r.live).Alive := Or.inl (by simpa [Work.first, Work.queue])
  obtain ⟨empty, alive⟩ := workOff_alive closed reducible
    (task.config.maxReductionsPerToken + r.live.length)
    (show Candid { r with live := [] } from candid) room (.first known) waiting thrifty
  rw [reduceAll]
  dsimp only
  simp only [ne_eq, List.reverse_eq_nil_iff]
  rcases alive with queue | (back | shifts | accepted) | failed
  · exact absurd empty queue
  · rw [Work.queue, List.append_eq_nil_iff, List.reverse_eq_nil_iff] at empty
    exact absurd empty.2 back
  · exact Or.inl shifts
  · exact Or.inr (Or.inl accepted)
  · exact Or.inr (Or.inr failed)

theorem reduceAll_failed (r : Run) : ∀ s ∈ (r.reduceAll task la).1.failed,
    task.language.actions s.state la.token.symbol = [] := by
  intro s hs
  exact workOff_failed (task.config.maxReductionsPerToken + r.live.length)
    (w := Work.first task r.live) (fun _ h => absurd h List.not_mem_nil) s (List.mem_reverse.mp hs)

end Work

end Run

end Glr
