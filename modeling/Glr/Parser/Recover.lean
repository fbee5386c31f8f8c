import Glr.Parser.Reduce

/-!
# Recovery

Recovery runs when no stack can do anything with the token ahead.  The best of them is repaired in
the first way that works: a missing token is inserted before the token ahead, the top of the stack
is wrapped in an error, or the token is skipped into an error.  The first two consume nothing and
are limited at each place; skipping is limited in a row, after which all the rest of the text is one
error.  At the end of the text there is nothing to skip, and the whole stack may be wrapped.
-/

namespace Glr

namespace Run

/-- Reduce a stack by the preferred actions on a terminal until it can shift it: the stack, and the
state to shift to. -/
def driveTo (l : Language) (la : Lookahead) (s : Symbol) :
    Nat → Stack → Run → Option (Stack × StateId) × Run
  | fuel, stack, r =>
    -- Of a cell with several actions the first is preferred.
    match (l.actions stack.state s).head?, fuel with
    | some (.shift next), _ => (some (stack, next), r)
    | some (.reduce id), fuel + 1 =>
      match r.reduce l stack id la true with
      | (some reduced, r) => driveTo l la s fuel reduced r
      | (none, r) => (none, r)
    | _, _ => (none, r)

/-- The reductions that may be made for one missing token. -/
def maxMissingReductions : Nat := 64

/-- A stack with a missing token pushed at a place. -/
def pushMissing (l : Language) (stack : Stack) (s : Symbol) (target : StateId) (place : Position) :
    Stack :=
  let leaf :=
    Green.leaf
      { symbol := s
        length := 0
        extent := Point.zero
        lookahead := 0
        parseState := stack.state
        lexMode := l.lexMode stack.state
        flags := NodeFlags.onlyMissing }
  (stack.push ⟨target, leaf, place, false⟩).charge Repair.missingCost

/-- Insert the first of some terminals that, once shifted, leads to a state with an action on the
token ahead. -/
def insertMissing (l : Language) (la : Lookahead) (stack : Stack) (r : Run) :
    List Symbol → Option (Stack × Symbol) × Run
  | [] => (none, r)
  | s :: ss =>
    if s == Symbol.endOfText || s == la.token.symbol || l.isExtra s then
      insertMissing l la stack r ss
    else
      match driveTo l la s maxMissingReductions stack r with
      | (some (reduced, next), r) =>
        -- Nodes made on the way stay counted also if they lead nowhere.
        if l.hasActions next la.token.symbol then
          (some (pushMissing l reduced s next la.start, s), r)
        else insertMissing l la stack r ss
      | (none, r) => insertMissing l la stack r ss

/-- The nodes of the best live stack and, behind them, the rest of the text. -/
def remains (task : ParseTask) (r : Run) : List Green :=
  let nodes :=
    match Frontier.best? r.live with
    | some s => s.nodes
    | none => []
  let start := min r.position.offset task.text.size
  if start < task.text.size then
    nodes ++ [Repair.errorLeaf (task.text.extract start task.text.size)]
  else nodes

/-- An error over all that there is, as the root of a parse that ends for some reason. -/
def wrapRemains (task : ParseTask) (r : Run) (problem : Problem) : Green × Run :=
  let root := Repair.errorNode (r.remains task)
  let r := r.warn problem ⟨r.position.offset, Size.ofText task.text⟩
  (root.value, r.noting root)

/-- The root of a parse that cannot be completed. -/
def abandon (task : ParseTask) (r : Run) : Green × Run :=
  wrapRemains task r.countRecovered .incomplete

def giveUp (task : ParseTask) (r : Run) : Flow :=
  let (root, r) := r.abandon task
  .done root r

def resume (r : Run) (s : Stack) : Flow := .more { r with live := [s] }

def tryMissing (l : Language) (la : Lookahead) (s : Stack) (r : Run) : Option Stack × Run :=
  let terminals := (l.stateActions s.state).map (·.1)
  match insertMissing l la s r terminals with
  | (some (repaired, missing), r) =>
    let problem := Problem.insertedMissing (l.symbolName missing) (l.symbolName la.token.symbol)
    (some repaired, r.noteRepair problem (Span.emptyAt la.start.offset))
  | (none, r) => (none, r)

/-- Repair by wrapping at most `allowed` entries in an error. -/
def tryWrap (l : Language) (la : Lookahead) (s : Stack) (allowed : Nat) (r : Run) :
    Option Stack × Run :=
  match Repair.wrap l s la.token.symbol allowed with
  | some wrapped =>
    let (repaired, start) := wrapped.value
    let problem := Problem.wrapped (l.symbolName la.token.symbol)
    (some repaired, (r.noting wrapped).noteRepair problem ⟨start, la.start.offset⟩)
  | none => (none, r)

/-- Repair without consuming anything. -/
def tryInPlace (task : ParseTask) (la : Lookahead) (s : Stack) (r : Run) : Option Stack × Run :=
  if r.recovery.attempts < task.config.maxRecoveryAttempts then
    -- An attempt counts whether or not it repairs anything.
    let r := { r with recovery.attempts := r.recovery.attempts + 1 }
    match tryMissing task.language la s r with
    | (some repaired, r) => (some repaired, r)
    | (none, r) =>
      let allowed := if la.token.isEnd then s.depth else task.config.maxRecoveryDepth
      tryWrap task.language la s allowed r
  else (none, r)

/-- Make all the rest of the text one error. -/
def sealRest (task : ParseTask) (la : Lookahead) (s : Stack) (r : Run) : Flow :=
  let rest := task.text.extract (min la.start.offset task.text.size) task.text.size
  let span := Span.ofLengthChecked la.start.offset (Size.ofText rest)
  let r := (r.noting span).noteRepair (.gaveUp r.recovery.skipped) span.value
  let leaf := Repair.errorLeaf rest
  let stop := la.start.advance leaf
  let skipped := Repair.skip s leaf stop.value Repair.skipCost
  resume { (r.noting stop).noting skipped with position := stop.value } skipped.value

def skipToken (l : Language) (la : Lookahead) (s : Stack) (r : Run) : Flow :=
  let r := { r with recovery.skipped := r.recovery.skipped + 1 }
  let r := r.noteRepair (.skipped (l.symbolName la.token.symbol)) la.token.span
  let (leaf, r) := r.makeLeaf la s.state NodeFlags.none
  let skipped := Repair.skip s leaf la.stop Repair.skipCost
  resume ((r.noting skipped).consume la) skipped.value

/-- Repair what can be repaired when nothing was done in place. -/
def giveWay (task : ParseTask) (la : Lookahead) (s : Stack) (r : Run) : Flow :=
  if la.token.isEnd then
    match tryWrap task.language la s s.depth r with
    | (some repaired, r) => resume r repaired
    | (none, r) => giveUp task { r with live := [s] }
  else if r.recovery.skipped ≥ task.config.maxSkipTokens then sealRest task la s r
  else skipToken task.language la s r

/-- Forget the repairs made at another place. -/
def atPlace (r : Run) (place : Nat) : Run :=
  if r.recovery.place = place then r
  else { r with recovery.place := place, recovery.attempts := 0 }

/-- Recover from a token that no stack can do anything with. -/
def recover (task : ParseTask) (la : Lookahead) (failed : List Stack) (r : Run) : Flow :=
  match Frontier.best? failed with
  -- Every stack was lost where it could not be reduced.
  | none => r.giveUp task
  | some s =>
    match tryInPlace task la s (r.atPlace la.start.offset) with
    | (some repaired, r) => resume r repaired
    | (none, r) => giveWay task la s r

end Run

end Glr
