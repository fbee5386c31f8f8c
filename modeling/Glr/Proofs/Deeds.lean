import Glr.Proofs.Reached

/-!
# What a turn does

A turn that a parse goes on after does one of a few things (`Deed`), and which one is decided step
by step: by the token ahead, by what the reductions on it come to, and by which repair works.
`Run.Does` lists them, each with all that was decided on the way and with the state that it leads
to, and `Run.Ends` does so for the turns that end a parse.  Every turn is among them
(`Run.steps_step`).

Skipping the token ahead and sealing the rest of the text start from the same place (`Run.Yields`):
nothing can be done where the parse is, and the limit on skipping decides.
-/

namespace Glr

/-- What a parse does in a turn.  Only a repair leaves it where it is before the end of the text. -/
inductive Deed where
  /-- The token, or a subtree that starts with it, is shifted. -/
  | shift
  /-- The token is pushed on every stack, as an extra or because nothing matched it. -/
  | extra
  /-- A missing token is inserted or the top of a stack is wrapped, and that is counted. -/
  | repair
  /-- At the end of the text, with no repair left, the stack is wrapped. -/
  | wrap
  /-- The token is skipped. -/
  | skip
  /-- All the rest of the text is made one error. -/
  | sealRest
  /-- The parse ends. -/
  | finish
  deriving DecidableEq

namespace Run

/-- Before the end of the text no stack can shift the token ahead, and the best of them is not
repaired where the parse is. -/
structure Yields (task : ParseTask) (la : Lookahead) (r : Run) (s : Stack) (r' : Run) : Prop where
  matched : la.token.isError = false
  needed : r.isPlainExtra task.language la = false
  notEnd : la.token.isEnd = false
  none : (r.reduceAll task la).1.shifts.isEmpty = true
  best : Frontier.best? (r.reduceAll task la).1.failed = some s
  unrepaired :
    tryInPlace task la s ((r.reduceAll task la).2.atPlace la.start.offset) = (Option.none, r')

/-- What a turn does once the token ahead is read, and the state that it leads to. -/
inductive Does (task : ParseTask) (la : Lookahead) (r : Run) : Deed → Run → Prop where
  | unknown (wrong : la.token.isError = true) :
      Does task la r .extra (r.takeUnknown task.text la)
  | extra (free : r.isPlainExtra task.language la = true) :
      Does task la r .extra (r.shiftExtra la 0)
  | shift (some : (r.reduceAll task la).1.shifts ≠ []) :
      Does task la r .shift
        ((r.reduceAll task la).2.shiftAll task la (r.reduceAll task la).1.shifts)
  | repair {s s' : Stack} {r' : Run}
      (best : Frontier.best? (r.reduceAll task la).1.failed = some s)
      (repaired : tryInPlace task la s ((r.reduceAll task la).2.atPlace la.start.offset) =
        (some s', r')) :
      Does task la r .repair { r' with live := [s'] }
  | wrap {s s' : Stack} {r' r'' : Run} (atEnd : la.token.isEnd = true)
      (best : Frontier.best? (r.reduceAll task la).1.failed = some s)
      (unrepaired : tryInPlace task la s ((r.reduceAll task la).2.atPlace la.start.offset) =
        (none, r'))
      (wrapped : tryWrap task.language la s s.depth r' = (some s', r'')) :
      Does task la r .wrap { r'' with live := [s'] }
  | skip {s : Stack} {r' r'' : Run} (yields : Yields task la r s r')
      (few : r'.recovery.skipped < task.config.maxSkipTokens)
      (skipped : skipToken task.language la s r' = .more r'') : Does task la r .skip r''
  | sealRest {s : Stack} {r' r'' : Run} (yields : Yields task la r s r')
      (many : task.config.maxSkipTokens ≤ r'.recovery.skipped)
      (sealed : sealRest task la s r' = .more r'') : Does task la r .sealRest r''

/-- How a turn ends a parse once the token ahead is read, with the root and the state at the end. -/
inductive Ends (task : ParseTask) (la : Lookahead) (r : Run) : Green → Run → Prop where
  | accept {s : Stack} (atEnd : la.token.isEnd = true)
      (best : Frontier.best? (r.reduceAll task la).1.accepted = some s) :
      Ends task la r (accept task.language s).value
        ((r.reduceAll task la).2.noting (accept task.language s))
  /-- No stack is left. -/
  | dead
      (unaccepted : la.token.isEnd = true →
        Frontier.best? (r.reduceAll task la).1.accepted = none)
      (unshifted : (r.reduceAll task la).1.shifts.isEmpty = true)
      (unfailed : Frontier.best? (r.reduceAll task la).1.failed = none) :
      Ends task la r ((r.reduceAll task la).2.abandon task).1
        ((r.reduceAll task la).2.abandon task).2
  /-- At the end of the text nothing repairs the stack that is left. -/
  | stuck {s : Stack} {r' r'' : Run} (atEnd : la.token.isEnd = true)
      (best : Frontier.best? (r.reduceAll task la).1.failed = some s)
      (unrepaired : tryInPlace task la s ((r.reduceAll task la).2.atPlace la.start.offset) =
        (none, r'))
      (unwrapped : tryWrap task.language la s s.depth r' = (none, r'')) :
      Ends task la r (abandon task { r'' with live := [s] }).1
        (abandon task { r'' with live := [s] }).2

/-- What a turn comes to: one of the deeds, or one of the ends. -/
inductive Steps (task : ParseTask) (la : Lookahead) (r : Run) : Flow → Prop where
  | more {d : Deed} {r' : Run} (does : Does task la r d r') : Steps task la r (.more r')
  | done {root : Green} {r' : Run} (ends : Ends task la r root r') :
      Steps task la r (.done root r')

variable {task : ParseTask} {la : Lookahead} {r r' : Run} {root : Green}

theorem steps_step (task : ParseTask) (la : Lookahead) (r : Run) :
    Steps task la r (r.step task la) := by
  rw [step]
  split
  · next wrong => exact .more (.unknown wrong)
  · next matched =>
    split
    · next free => exact .more (.extra free)
    · next needed =>
      dsimp only
      split
      · next s found =>
        split at found
        · next atEnd => exact .done (.accept atEnd found)
        · cases found
      · next unaccepted =>
        split
        · next none =>
          rw [recover]
          split
          · next unfailed =>
            exact .done (.dead (fun atEnd => (if_pos atEnd).symm.trans unaccepted) none unfailed)
          · next s best =>
            split
            · next s' r₁ repaired => exact .more (.repair best repaired)
            · next r₁ unrepaired =>
              rw [giveWay]
              split
              · next atEnd =>
                split
                · next s' r₂ wrapped => exact .more (.wrap atEnd best unrepaired wrapped)
                · next r₂ unwrapped => exact .done (.stuck atEnd best unrepaired unwrapped)
              · next notEnd =>
                have yields : Yields task la r s r₁ :=
                  ⟨Bool.eq_false_iff.mpr matched, Bool.eq_false_iff.mpr needed,
                    Bool.eq_false_iff.mpr notEnd, none, best, unrepaired⟩
                split
                · next many => exact .more (.sealRest yields many rfl)
                · next few => exact .more (.skip yields (Nat.lt_of_not_le few) rfl)
        · next some => exact .more (.shift fun nil => some (by rw [nil]; rfl))

/-- Whatever a turn does that a parse goes on after is one of the deeds. -/
theorem does_of_turn (more : r.turn task = .more r') :
    ∃ d, Does task (r.lookahead task).1 (r.lookahead task).2 d r' := by
  have steps : Steps task _ _ (r.turn task) := steps_step task (r.lookahead task).1 _
  rw [more] at steps
  cases steps with
  | more does => exact ⟨_, does⟩

/-- However a turn ends a parse is one of the ends. -/
theorem ends_of_turn (done : r.turn task = .done root r') :
    Ends task (r.lookahead task).1 (r.lookahead task).2 root r' := by
  have steps : Steps task _ _ (r.turn task) := steps_step task (r.lookahead task).1 _
  rw [done] at steps
  cases steps with
  | done ends => exact ends

/-- Where nothing else can be done, the limit on skipping decides. -/
theorem Yields.step_eq {s : Stack} (yields : Yields task la r s r') : r.step task la =
    if task.config.maxSkipTokens ≤ r'.recovery.skipped then sealRest task la s r'
    else skipToken task.language la s r' := by
  have matched : ¬ la.token.isError = true := Bool.eq_false_iff.mp yields.matched
  have needed : ¬ r.isPlainExtra task.language la = true := Bool.eq_false_iff.mp yields.needed
  have notEnd : ¬ la.token.isEnd = true := Bool.eq_false_iff.mp yields.notEnd
  rw [step, if_neg matched, if_neg needed]
  dsimp only
  rw [if_neg notEnd]
  dsimp only
  rw [if_pos yields.none, recover, yields.best]
  dsimp only
  rw [yields.unrepaired]
  dsimp only
  rw [giveWay, if_neg notEnd]

end Run

end Glr
