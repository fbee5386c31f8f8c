import Glr.Proofs.Work
import Glr.Parser.Recover

/-!
# What the work on a token may change

All the work on a token, whether stacks are reduced or a missing token is looked for, changes the
state of a parse by reports of limits and by reductions and by nothing else.  So a relation between
states that holds across these two, and is a preorder, holds across all of it (`Framing`), and no
proof about counts, warnings or places has to follow the queue again.
-/

namespace Glr

namespace Run

/-- A relation between the states before and after some work, whatever the work is. -/
structure Framing (R : Run → Run → Prop) : Prop where
  refl : ∀ r, R r r
  trans : ∀ {r r' r''}, R r r' → R r' r'' → R r r''
  report : ∀ (r : Run) (l : Limit), R r (r.report l)
  reduce : ∀ (r : Run) (l : Language) (s : Stack) (id : ProductionId) (la : Lookahead)
    (fragile : Bool), R r (r.reduce l s id la fragile).2

namespace Framing

variable {R : Run → Run → Prop} (framing : Framing R)

include framing

section Token

variable (task : ParseTask) (la : Lookahead) (ambiguous : Bool)

theorem takeAction (s : Stack) (w : Work) (r : Run) (action : Action) :
    R r (Run.takeAction task la ambiguous s (w, r) action).2 := by
  cases action with
  | shift next => exact framing.refl r
  | accept => exact framing.refl r
  | reduce id =>
    simp only [Run.takeAction]
    split
    · exact framing.report r _
    · have reduced := framing.reduce r task.language s id la (ambiguous || s.forked)
      split
      · next eq =>
        rw [eq] at reduced
        exact reduced
      · next eq =>
        rw [eq] at reduced
        exact reduced

theorem takeActions (s : Stack) (forks : Bool) :
    ∀ (actions : List Action) (w : Work) (r : Run) (index : Nat),
      R r (Run.takeActions task la ambiguous s forks (w, r) index actions).2 := by
  intro actions
  induction actions with
  | nil => exact fun _ r _ => framing.refl r
  | cons action actions ih =>
    intro w r index
    exact framing.trans
      (framing.takeAction task la ambiguous (branch s forks index) w r action)
      (ih _ _ (index + 1))

theorem workOff :
    ∀ (fuel : Nat) (w : Work) (r : Run), R r (Run.workOff task la ambiguous fuel (w, r)).2 := by
  intro fuel
  induction fuel with
  | zero => exact fun _ r => framing.refl r
  | succ fuel ih =>
    intro w r
    rw [Run.workOff]
    split
    · exact framing.refl r
    · dsimp only
      split
      · exact ih _ r
      · exact framing.trans (framing.takeActions task la ambiguous _ _ _ _ r 0) (ih _ _)

/-- The reductions of all stacks start with none of them live. -/
theorem reduceAll (r : Run) : R { r with live := [] } (r.reduceAll task la).2 :=
  framing.workOff task la (r.live.length > 1)
    (task.config.maxReductionsPerToken + r.live.length) (Work.first task r.live)
    { r with live := [] }

end Token

section Repair

variable (l : Language) (la : Lookahead)

theorem driveTo (t : Symbol) :
    ∀ (fuel : Nat) (s : Stack) (r : Run), R r (Run.driveTo l la t fuel s r).2 := by
  intro fuel
  induction fuel with
  | zero =>
    intro s r
    rw [Run.driveTo.eq_def]
    dsimp only
    split
    · exact framing.refl r
    · next contra => cases contra
    · exact framing.refl r
  | succ fuel ih =>
    intro s r
    rw [Run.driveTo.eq_def]
    dsimp only
    split
    · exact framing.refl r
    · next id _ _ same =>
      cases same
      have reduced := framing.reduce r l s id la true
      split
      · next eq =>
        rw [eq] at reduced
        exact framing.trans reduced (ih _ _)
      · next eq =>
        rw [eq] at reduced
        exact reduced
    · exact framing.refl r

theorem insertMissing (s : Stack) :
    ∀ (terminals : List Symbol) (r : Run), R r (Run.insertMissing l la s r terminals).2 := by
  intro terminals
  induction terminals with
  | nil => exact framing.refl
  | cons t ts ih =>
    intro r
    rw [Run.insertMissing]
    split
    · exact ih r
    · have driven := framing.driveTo l la t maxMissingReductions s r
      split
      · next eq =>
        rw [eq] at driven
        split
        · exact driven
        · exact framing.trans driven (ih _)
      · next eq =>
        rw [eq] at driven
        exact framing.trans driven (ih _)

end Repair

end Framing

end Run

end Glr
