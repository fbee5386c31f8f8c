import Glr.Proofs.Turns

/-!
# The states that a parse goes through

A parse is a loop, and what it comes to is a matter of the turns before.  `Reached` says which
states stand between two turns, with the tokens that were ahead in the turns so far, and `Closes`
how the last turn ends it; `closes_outcome` is the one place that looks at the loop, and every
outcome is one of the three that it tells apart.

Within a turn a stack may come up that is not there any more when the turn is over: it was reduced,
it forked, it was merged into a better one, or a repair tried it and dropped it.  `Meets` lists
these too, after any number of steps of the work on a token.  It lists more than a parse will come
to, as a repair may be tried with any symbol; what holds of all these stacks holds of those.
-/

namespace Glr

namespace Flow

def goesOn : Flow → Bool
  | more _ => true
  | done _ _ => false

theorem eq_more {f : Flow} (h : f.goesOn = true) : f = .more f.run := by
  cases f with
  | more r => rfl
  | done root r => cases h

end Flow

namespace Run

variable {task : ParseTask} {old : Option Green} {r r' : Run} {la : Lookahead}
  {tokens : List Lookahead}

/-- The state before the first turn. -/
def initial (old : Option Green) : Run :=
  start (match old with
    | some root => ReuseCursor.ofTree root
    | none => ReuseCursor.exhausted)

/-- The states between two turns, with the tokens that were ahead, the latest first. -/
inductive Reached (task : ParseTask) (old : Option Green) : List Lookahead → Run → Prop where
  | initial : Reached task old [] (initial old)
  | turn {r r' : Run} {tokens : List Lookahead} (reached : Reached task old tokens r)
      (more : r.turn task = .more r') : Reached task old ((r.lookahead task).1 :: tokens) r'

/-- What a parse comes to, with the tokens that were ahead. -/
inductive Closes (task : ParseTask) (old : Option Green) : List Lookahead → Outcome → Prop where
  | cancelled {r : Run} {tokens : List Lookahead} (reached : Reached task old tokens r) :
      Closes task old tokens (r.cancel task)
  | exceeded {r : Run} {tokens : List Lookahead} (reached : Reached task old tokens r) :
      Closes task old tokens (r.exceed task)
  | done {r r' : Run} {tokens : List Lookahead} {root : Green}
      (reached : Reached task old tokens r) (done : r.turn task = .done root r') :
      Closes task old ((r.lookahead task).1 :: tokens) ⟨root, r', false⟩

/-- The tokens that are ahead in the turns of the loop, the earliest first. -/
def readings (task : ParseTask) (interrupts : Interrupts) : Nat → Nat → Run → List Lookahead
  | fuel, turns, r =>
    if r.isCancelled interrupts turns then []
    else
      match fuel with
      | 0 => []
      | fuel + 1 =>
        (r.lookahead task).1 ::
          match r.turn task with
          | .done _ _ => []
          | .more r => readings task interrupts fuel (turns + 1) r

theorem closes_loop (interrupts : Interrupts) :
    ∀ (fuel turns : Nat) {r : Run} {tokens : List Lookahead}, Reached task old tokens r →
      Closes task old ((readings task interrupts fuel turns r).reverse ++ tokens)
        (loop task interrupts fuel turns r) := by
  intro fuel
  induction fuel with
  | zero =>
    intro turns r tokens reached
    rw [loop.eq_def, readings.eq_def]
    dsimp only
    split
    · exact .cancelled reached
    · exact .exceeded reached
  | succ fuel ih =>
    intro turns r tokens reached
    rw [loop.eq_def, readings.eq_def]
    dsimp only
    split
    · exact .cancelled reached
    · rw [List.reverse_cons, List.append_assoc, List.singleton_append]
      cases turned : r.turn task with
      | done root r' => exact .done reached turned
      | more r' => exact ih (turns + 1) (.turn reached turned)

/-- The tokens that are ahead in the turns of a parse. -/
def tokensAhead (task : ParseTask) (interrupts : Interrupts) (old : Option Green) :
    List Lookahead :=
  readings task interrupts (task.config.stepBudget task.text.size) 0 (initial old)

theorem closes_outcome (task : ParseTask) (interrupts : Interrupts) (old : Option Green) :
    Closes task old (tokensAhead task interrupts old).reverse (outcome task interrupts old) := by
  have closes := closes_loop interrupts (task.config.stepBudget task.text.size) 0
    (.initial : Reached task old [] (initial old))
  rw [List.append_nil] at closes
  exact closes

theorem Reached.good (reached : Reached task old tokens r) : r.Good task old := by
  induction reached with
  | initial => exact good_start old
  | @turn r r' tokens reached more ih =>
    have well := goesWell_turn ih
    rw [more] at well
    exact well

/-! ## Within a turn -/

/-- The work on a token after a number of steps. -/
def workOn (task : ParseTask) (la : Lookahead) (r : Run) (steps : Nat) : Work × Run :=
  workOff task la (r.live.length > 1) steps
    (⟨r.live, [], task.config.maxReductionsPerToken, ⟨[], [], []⟩⟩, { r with live := [] })

/-- The stacks that come up while a state takes its turn. -/
inductive Meets (task : ParseTask) (r : Run) : Stack → Prop where
  | live {s : Stack} (mem : s ∈ r.live) : Meets task r s
  | queued {s : Stack} (steps : Nat)
      (mem : s ∈ (workOn task (r.lookahead task).1 (r.lookahead task).2 steps).1.queue) :
      Meets task r s
  | accepted {s : Stack} (steps : Nat)
      (mem : s ∈ (workOn task (r.lookahead task).1 (r.lookahead task).2 steps).1.phase.accepted) :
      Meets task r s
  | failed {s : Stack} (steps : Nat)
      (mem : s ∈ (workOn task (r.lookahead task).1 (r.lookahead task).2 steps).1.phase.failed) :
      Meets task r s
  | shifting {s : Stack} {target : StateId} (steps : Nat)
      (mem : (s, target) ∈
        (workOn task (r.lookahead task).1 (r.lookahead task).2 steps).1.phase.shifts) :
      Meets task r s
  | branch {s : Stack} (met : Meets task r s) (forks : Bool) (index : Nat) :
      Meets task r (branch s forks index)
  | driven {s : Stack} {t : Symbol} {id : ProductionId} {c : Checked Stack} (met : Meets task r s)
      (head : (task.language.actions s.state t).head? = some (.reduce id))
      (reduced : s.reduce? task.language id (r.lookahead task).1 true = some c) :
      Meets task r c.value
  | pushed {s : Stack} {shifts : List (Stack × StateId)} {r' : Run} {phase : Phase}
      (reduced : (r.lookahead task).2.reduceAll task (r.lookahead task).1 = (phase, r'))
      (mem : s ∈ (r'.pushToken (r.lookahead task).1 phase.shifts).live) : Meets task r s

end Run

end Glr
