import Glr.Parser.Run

/-!
# Reductions

A reduction takes the nodes of a production off a stack, puts a node over them, and pushes that in
the state that the goto gives.  Extras on top of the stack stay on top.  On one token every stack is
reduced as far as the tables allow, forking where a cell holds several actions; what comes out are
the stacks that can shift the token, those that accept, and those that can do nothing with it.
-/

namespace Glr

/-- The nodes of `count` entries off the top that are no extras and of the extras between, in front
of a list, and the entries below. -/
def Stack.takeNodes (nodes : List Green) :
    Nat → List StackEntry → Option (List Green × List StackEntry)
  | 0, entries => some (nodes, entries)
  | _ + 1, [] => none
  | count + 1, e :: below =>
    if e.extra then takeNodes (e.node :: nodes) (count + 1) below
    else takeNodes (e.node :: nodes) count below

/-- The furthest place that had a say in a node: it is as far as the token ahead was looked at, or
one of the children was.  The children stand side by side from a place. -/
def reachOver (reach : Nat) (start : Nat) : List Green → Nat
  | [] => reach
  | g :: gs =>
    let stop := start + g.length
    reachOver (max reach (stop + g.lookahead)) stop gs

/-- Bytes behind the end of a node that had a say in it. -/
def nodeLookahead (la : Lookahead) (stop : Nat) (children : List Green) : Checked Nat := do
  let length ← Green.totalLength children
  let start ← Size.sub stop length
  let reach := reachOver (la.token.span.stop + la.token.lookahead) start children
  return min (reach - stop) Size.largest

/-- The stack after the reduction of a production, unless it has too few entries or there is no
goto. -/
def Stack.reduce? (l : Language) (s : Stack) (id : ProductionId) (la : Lookahead)
    (fragile : Bool) : Option (Checked Stack) := do
  let production ← l.production? id
  let trailing := s.entries.takeWhile (·.extra)
  let base := { s with entries := s.entries.dropWhile (·.extra) }
  let stop := base.position
  let (children, below) ← takeNodes [] production.length base.entries
  let base := { base with entries := below }
  let state := base.state
  let target ← l.goto? state production.lhs
  return do
    let lookahead ← nodeLookahead la stop.offset children
    let node ← Green.node
      { symbol := production.lhs
        production := some id
        parseState := state
        lookahead
        dynamicPrecedence := production.dynamicPrecedence
        flags := NodeFlags.fragileIf fragile } children
    let dynamicPrecedence ← Level.add base.dynamicPrecedence production.dynamicPrecedence
    let entry : StackEntry := ⟨target, node, stop, false⟩
    return { base with
      entries := trailing.map (fun e => { e with state := target }) ++ entry :: below
      dynamicPrecedence }

/-- The outcome of the reductions on one token. -/
structure Phase where
  /-- The stacks that can shift the token, the latest first, with the states to shift to. -/
  shifts : List (Stack × StateId)
  /-- The stacks that accept, the latest first. -/
  accepted : List Stack
  /-- The stacks with no action on the token, the latest first. -/
  failed : List Stack
  deriving Inhabited

namespace Run

def reduce (l : Language) (r : Run) (s : Stack) (id : ProductionId) (la : Lookahead)
    (fragile : Bool) : Option Stack × Run :=
  match s.reduce? l id la fragile with
  | none => (none, r)
  | some reduced => (some reduced.value, r.countCreated.noting reduced)

/-- What is still to do for a token: the stacks to look at, first come first served, the reductions
left, and the outcome so far. -/
structure Work where
  front : List Stack
  /-- The stacks behind those in front, the latest first. -/
  back : List Stack
  budget : Nat
  phase : Phase

namespace Work

/-- The stacks to look at, in order. -/
def queue (w : Work) : List Stack := w.front ++ w.back.reverse

def enqueue (w : Work) (s : Stack) : Work := { w with back := s :: w.back }

/-- The stack at the front of the queue, and the work without it. -/
def dequeue? (w : Work) : Option (Stack × Work) :=
  match w.front with
  | s :: front => some (s, { w with front })
  | [] =>
    match w.back.reverse with
    | s :: front => some (s, { w with front, back := [] })
    | [] => none

end Work

/-- The copy of a stack that takes the action at an index of a cell. -/
def branch (s : Stack) (forks : Bool) (index : Nat) : Stack :=
  if forks then { s with forked := true, preference := s.preference + index } else s

/-- Take one action of a cell on a stack. -/
def takeAction (task : ParseTask) (la : Lookahead) (ambiguous : Bool) (s : Stack)
    (state : Work × Run) (action : Action) : Work × Run :=
  let (work, r) := state
  match action with
  | .shift next => ({ work with phase.shifts := (s, next) :: work.phase.shifts }, r)
  | .accept => ({ work with phase.accepted := s :: work.phase.accepted }, r)
  | .reduce id =>
    -- A branch that cannot be reduced is lost: it neither shifts nor fails.
    if work.budget = 0 then
      (work, r.report (.reductions task.config.maxReductionsPerToken))
    else
      let work := { work with budget := work.budget - 1 }
      match r.reduce task.language s id la (ambiguous || s.forked) with
      | (some reduced, r) => (work.enqueue reduced, r)
      | (none, r) => (work, r)

/-- Take the actions of a cell from a given index on, each on a branch of a stack. -/
def takeActions (task : ParseTask) (la : Lookahead) (ambiguous : Bool) (s : Stack) (forks : Bool)
    (state : Work × Run) (index : Nat) : List Action → Work × Run
  | [] => state
  | action :: actions =>
    takeActions task la ambiguous s forks
      (takeAction task la ambiguous (branch s forks index) state action) (index + 1) actions

/-- Work off the queue.  Every turn takes one stack off it, and puts one on it for each reduction
that it takes out of the budget. -/
def workOff (task : ParseTask) (la : Lookahead) (ambiguous : Bool) :
    Nat → Work × Run → Work × Run
  | 0, state => state
  | fuel + 1, (work, r) =>
    match work.dequeue? with
    | none => (work, r)
    | some (s, work) =>
      let actions := task.language.actions s.state la.token.symbol
      if actions.isEmpty then
        workOff task la ambiguous fuel
          ({ work with phase.failed := s :: work.phase.failed }, r)
      else
        workOff task la ambiguous fuel
          (takeActions task la ambiguous s (actions.length > 1) (work, r) 0 actions)

/-- Reduce all stacks on the token ahead; none is live after it. -/
def reduceAll (task : ParseTask) (la : Lookahead) (r : Run) : Phase × Run :=
  let budget := task.config.maxReductionsPerToken
  let live := r.live
  let work : Work := ⟨live, [], budget, ⟨[], [], []⟩⟩
  -- What is on the queue comes from the live stacks or out of the budget.
  let (work, r) :=
    workOff task la (live.length > 1) (budget + live.length) (work, { r with live := [] })
  let phase := work.phase
  (⟨phase.shifts.reverse, phase.accepted.reverse, phase.failed.reverse⟩, r)

end Run

end Glr
