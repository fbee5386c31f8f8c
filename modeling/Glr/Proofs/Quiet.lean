import Glr.Proofs.Ledger

/-!
# Turns that report nothing

Every repair leaves a warning, every limit that is hit leaves one unless it has left one before, and
so does every end of a parse but that of a stack that accepts.  So where a parse has no warnings at
its end, little can have happened in its turns: a token was pushed as an extra, or all reductions on
it were made and it was shifted, or a stack has accepted (`Quiet`).  The stacks were only ever
thinned out by merging them.
-/

namespace Glr

namespace Run

variable {task : ParseTask} {r : Run} {la : Lookahead} {s : Stack}

/-! ## Repairs -/

section Repairs

variable (task la s)

theorem tryMissing_warns (l : Language) (h : (tryMissing l la s r).1 ≠ none) :
    (tryMissing l la s r).2.warnings ≠ [] := by
  rw [tryMissing] at h ⊢
  split
  · exact List.cons_ne_nil _ _
  · next none =>
    rw [none] at h
    exact absurd rfl h

theorem tryWrap_warns (l : Language) (allowed : Nat) (h : (tryWrap l la s allowed r).1 ≠ none) :
    (tryWrap l la s allowed r).2.warnings ≠ [] := by
  rw [tryWrap] at h ⊢
  split
  · exact List.cons_ne_nil _ _
  · next none =>
    rw [none] at h
    exact absurd rfl h

theorem tryInPlace_warns (h : (tryInPlace task la s r).1 ≠ none) :
    (tryInPlace task la s r).2.warnings ≠ [] := by
  rw [tryInPlace] at h ⊢
  split
  · next few =>
    rw [if_pos few] at h
    dsimp only at h ⊢
    have missing := tryMissing_warns la s task.language
      (r := { r with recovery.attempts := r.recovery.attempts + 1 })
    split
    · next eq =>
      rw [eq] at missing
      exact missing (Option.some_ne_none _)
    · next eq =>
      rw [eq] at h
      exact tryWrap_warns la s _ _ h
  · next many =>
    rw [if_neg many] at h
    exact absurd rfl h

theorem giveWay_warns : (giveWay task la s r).run.warnings ≠ [] := by
  rw [giveWay]
  split
  · have wrapped := tryWrap_warns la s task.language s.depth (r := r)
    split
    · next eq =>
      rw [eq] at wrapped
      exact wrapped (Option.some_ne_none _)
    · exact List.cons_ne_nil _ _
  · split
    · exact List.cons_ne_nil _ _
    · intro quiet
      exact List.cons_ne_nil _ _ ((Reports.makeLeaf la s.state NodeFlags.none).silent quiet)

theorem recover_warns (failed : List Stack) : (r.recover task la failed).run.warnings ≠ [] := by
  rw [recover]
  split
  · exact List.cons_ne_nil _ _
  · next s best =>
    have repaired := tryInPlace_warns task la s (r := r.atPlace la.start.offset)
    split
    · next eq =>
      rw [eq] at repaired
      exact repaired (Option.some_ne_none _)
    · exact giveWay_warns task la s

end Repairs

/-! ## Thinning out -/

theorem watchAmbiguity_live {config : ParserConfig} (honest : r.Honest)
    (quiet : (r.watchAmbiguity config).warnings = []) :
    (r.watchAmbiguity config).live = r.live := by
  rw [watchAmbiguity] at quiet ⊢
  split at quiet
  · split at quiet
    · exact absurd quiet (honest.warnings_report _)
    · next several few => rw [if_pos several, if_neg few]
  · next single => rw [if_neg single]

/-- Where no limit is reported, stacks are merged and nothing else. -/
theorem settle_live {config : ParserConfig} (honest : r.Honest)
    (quiet : (r.settle config).warnings = []) :
    (r.settle config).live = Frontier.merge (r.live.map fun s => { s with forked := false }) := by
  rw [settle] at quiet ⊢
  dsimp only at quiet ⊢
  generalize Frontier.merge (r.live.map fun s => { s with forked := false }) = merged at quiet ⊢
  have honest : Honest { r with live := Frontier.prune merged config.maxStacks } := honest
  by_cases crowded : Frontier.isCrowded merged config.maxStacks = true
  · rw [if_pos crowded] at quiet
    have reported := (watchAmbiguity_reports config _).1.silent quiet
    exact absurd reported (honest.warnings_report _)
  · rw [if_neg crowded] at quiet ⊢
    refine (watchAmbiguity_live ?_ quiet).trans (if_neg crowded)
    exact honest

/-- A stack that a token was shifted on, as it stands before the next token. -/
def shifted (node : Green) (stop : Position) (m : Stack × StateId) : Stack :=
  { m.1.push ⟨m.2, node, stop, false⟩ with forked := false }

section Shifts

variable {shifts : List (Stack × StateId)} (fresh : la.reused = none)

theorem pushToken_spec (la : Lookahead) (shifts : List (Stack × StateId)) :
    ((r.pushToken la shifts).warnings = [] → r.warnings = []) ∧
      (r.Honest → (r.pushToken la shifts).Honest) ∧ ∃ state flags, flags.missing = false ∧
        (r.pushToken la shifts).live = shifts.map fun m =>
          m.1.push ⟨m.2, (r.makeLeaf la state flags).1, la.stop, false⟩ := by
  obtain ⟨state, flags, -, present, pushed⟩ := pushToken_eq r la shifts
  have leaf := Reports.makeLeaf (r := r) la state flags
  rw [pushed]
  exact ⟨leaf.silent, leaf.honest, state, flags, present, rfl⟩

include fresh

/-- A token that was lexed is pushed itself. -/
theorem shiftAll_eq : r.shiftAll task la shifts =
    (pushToken { r with recovery.skipped := 0 } la shifts).settle task.config := by
  have noSubtree : subtree task.language { r with recovery.skipped := 0 } la shifts =
      (none, { r with recovery.skipped := 0 }) := by
    rw [subtree.eq_def]
    split
    · rw [fresh, Option.isNone_none, Bool.or_true, if_pos rfl]
    · rfl
  rw [shiftAll, noSubtree]

theorem shiftAll_silent (quiet : (r.shiftAll task la shifts).warnings = []) :
    r.warnings = [] := by
  rw [shiftAll_eq fresh] at quiet
  obtain ⟨silent, -⟩ := pushToken_spec (r := { r with recovery.skipped := 0 }) la shifts
  exact silent ((settle_reports task.config _).1.silent quiet)

/-- A token that was lexed is pushed on all the stacks that shift it, and these are merged. -/
theorem shiftAll_live (honest : r.Honest) (quiet : (r.shiftAll task la shifts).warnings = []) :
    (r.shiftAll task la shifts).Honest ∧ ∃ before state flags, flags.missing = false ∧
      (r.shiftAll task la shifts).live = Frontier.merge
        (shifts.map (shifted (makeLeaf before la state flags).1 la.stop)) := by
  obtain ⟨-, keeps, state, flags, present, live⟩ :=
    pushToken_spec (r := { r with recovery.skipped := 0 }) la shifts
  have honest := keeps honest
  rw [shiftAll_eq fresh] at quiet ⊢
  refine ⟨(settle_reports task.config _).1.honest honest,
    { r with recovery.skipped := 0 }, state, flags, present, ?_⟩
  rw [settle_live honest quiet, live, List.map_map]
  rfl

end Shifts

/-! ## Turns -/

/-- What a turn can be that reports nothing. -/
inductive Quiet (task : ParseTask) (r : Run) (la : Lookahead) : Flow → Prop where
  | extra (notEnd : la.token.isEnd = false)
      (isExtra : task.language.isExtra la.token.symbol = true) :
      Quiet task r la (.more (r.shiftExtra la 0))
  | shift (some : (r.reduceAll task la).1.shifts ≠ []) :
      Quiet task r la
        (.more ((r.reduceAll task la).2.shiftAll task la (r.reduceAll task la).1.shifts))
  | accept {s : Stack} (atEnd : la.token.isEnd = true)
      (best : Frontier.best? (r.reduceAll task la).1.accepted = some s) :
      Quiet task r la ((r.reduceAll task la).2.finish task.language s)

theorem quiet_step (quiet : (r.step task la).run.warnings = []) :
    Quiet task r la (r.step task la) := by
  rw [step] at quiet ⊢
  split at quiet
  · have noted := (Reports.makeLeaf la _ _).silent quiet
    exact absurd noted (List.cons_ne_nil _ _)
  · next matched =>
    rw [if_neg matched]
    split at quiet
    · next free =>
      rw [if_pos free]
      simp only [isPlainExtra, Bool.and_eq_true, Bool.not_eq_true'] at free
      exact .extra free.1.1 free.1.2
    · next apart =>
      rw [if_neg apart]
      dsimp only at quiet ⊢
      split at quiet
      · next s found =>
        split at found
        · next atEnd => exact .accept atEnd found
        · cases found
      · split at quiet
        · exact absurd quiet (recover_warns task la _)
        · next some =>
          rw [if_neg some]
          exact .shift fun nil => some (List.isEmpty_iff.mpr nil)

/-- What is quiet after a turn has been so before. -/
theorem step_silent (fresh : la.reused = none) (quiet : (r.step task la).run.warnings = []) :
    r.warnings = [] := by
  have turn := quiet_step quiet
  generalize r.step task la = flow at quiet turn
  cases turn with
  | extra notEnd isExtra => exact (Reports.makeLeaf la _ _).silent quiet
  | shift some => exact (reduceAll_reports r).silent (shiftAll_silent fresh quiet)
  | accept atEnd best => exact (reduceAll_reports r).silent quiet

/-- Without an old tree every token is lexed. -/
theorem fresh_of_ahead (ahead : Ahead task none la) : la.reused = none := by
  cases ahead with
  | reused held => exact absurd held.choose_spec.1 (Option.not_mem_none _)
  | lexed place valid mode => rfl

theorem quiet_turn (good : r.Good task none) (quiet : (r.turn task).run.warnings = []) :
    r.warnings = [] ∧ Quiet task (r.lookahead task).2 (r.lookahead task).1 (r.turn task) := by
  have fresh := fresh_of_ahead (lookahead_spec good).1
  exact ⟨(lookahead_reports task r).1.silent (step_silent fresh quiet), quiet_step quiet⟩

end Run

end Glr
