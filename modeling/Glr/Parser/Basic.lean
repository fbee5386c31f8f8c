import Glr.Parser.Lookahead
import Glr.Parser.Recover
import Glr.Parser.Shift
import Glr.Tree.Basic

/-!
# Parsing

A parser runs the automaton of a language over a text and gives a tree, whatever the text is.  Each
turn of its loop reads one token ahead and deals with it: an unknown or extra token is pushed on
every stack; any other is shifted where it can be, after all the reductions it calls for; and where
it cannot be shifted at all, the text is repaired.

A parse may be given the edited tree of an older version of the text.  It then takes over what the
edit has left alone, and the tree is the same as without.

Between two turns a parse may be cancelled.  `Interrupts` says when: it is asked once each turn.
-/

namespace Glr

/-- When a parse is cancelled. -/
structure Interrupts where
  /-- Whether a parse is cancelled when it looks for the `n`-th time, counting from zero. -/
  pending : Nat → Bool
  /-- Whether a scanner's wish to stop counts. -/
  heedScanner : Bool

namespace Interrupts

/-- Nothing cancels a parse. -/
def never : Interrupts := ⟨fun _ => false, false⟩

/-- Only a scanner cancels a parse. -/
def byScanner : Interrupts := ⟨fun _ => false, true⟩

/-- A parse is cancelled from the start. -/
def atOnce : Interrupts := ⟨fun _ => true, true⟩

end Interrupts

namespace Run

/-- Whether the token ahead is pushed as an extra without a look at the tables. -/
def isPlainExtra (l : Language) (r : Run) (la : Lookahead) : Bool :=
  !la.token.isEnd && l.isExtra la.token.symbol
    && !(r.live.any fun s => l.hasActions s.state la.token.symbol)

/-- Push bytes that no token matched. -/
def takeUnknown (text : Text) (r : Run) (la : Lookahead) : Run :=
  let span := la.token.span
  let bytes := Utf8.decodeLossy (text.extract span.start span.stop)
  (r.noteRepair (.unrecognized bytes) span).shiftExtra la Repair.skipCost

def finish (l : Language) (r : Run) (s : Stack) : Flow :=
  let root := accept l s
  .done root.value (r.noting root)

def step (task : ParseTask) (r : Run) (la : Lookahead) : Flow :=
  if la.token.isError then .more (r.takeUnknown task.text la)
  else if r.isPlainExtra task.language la then .more (r.shiftExtra la 0)
  else
    let (phase, r) := r.reduceAll task la
    match if la.token.isEnd then Frontier.best? phase.accepted else none with
    | some s => r.finish task.language s
    | none =>
      if phase.shifts.isEmpty then r.recover task la phase.failed
      else .more (r.shiftAll task la phase.shifts)

/-- One turn: read the token ahead and deal with it. -/
def turn (task : ParseTask) (r : Run) : Flow :=
  let (la, r) := r.lookahead task
  r.step task la

/-- Whether a parse is cancelled before a given turn. -/
def isCancelled (interrupts : Interrupts) (turns : Nat) (r : Run) : Bool :=
  interrupts.pending turns || (interrupts.heedScanner && r.stopRequested)

/-- What a run comes to: the root, the state at its end, and whether it was cancelled. -/
structure Outcome where
  root : Green
  run : Run
  cancelled : Bool

/-- End a parse that is cancelled. -/
def cancel (task : ParseTask) (r : Run) : Outcome :=
  let (root, r) := r.wrapRemains task .cancelled
  ⟨root, r, true⟩

/-- End a parse that took too many steps. -/
def exceed (task : ParseTask) (r : Run) : Outcome :=
  let budget := task.config.stepBudget task.text.size
  -- The turn that finds the budget used up is counted too, in a word like all the others.
  let counted := Checked.demand (budget < ParserConfig.largestCount)
  let (root, r) := ((r.report (.steps budget)).noting counted).abandon task
  ⟨root, r, false⟩

/-- Take turns until the parse ends, at most `fuel` of them. -/
def loop (task : ParseTask) (interrupts : Interrupts) : Nat → Nat → Run → Outcome
  | fuel, turns, r =>
    if r.isCancelled interrupts turns then r.cancel task
    else
      match fuel with
      | 0 => r.exceed task
      | fuel + 1 =>
        match r.turn task with
        | .done root r => ⟨root, r, false⟩
        | .more r => loop task interrupts fuel (turns + 1) r

def outcome (task : ParseTask) (interrupts : Interrupts) (old : Option Green) : Outcome :=
  let reuse :=
    match old with
    | some root => ReuseCursor.ofTree root
    | none => ReuseCursor.exhausted
  loop task interrupts (task.config.stepBudget task.text.size) 0 (start reuse)

end Run

/-- What a parse gives.  There is always a tree. -/
structure ParseResult where
  tree : Tree
  warnings : List Warning
  metrics : Metrics
  cancelled : Bool

def ParseResult.hasErrors (p : ParseResult) : Bool := p.tree.hasError

structure Parser where
  language : Language
  config : ParserConfig

namespace Parser

/-- The root of an old tree, if it is of the parser's language. -/
def oldRoot (p : Parser) (old : Option Tree) : Option Green :=
  (old.filter fun t => t.language.sameAs p.language).map (·.root)

/-- Parse a text, with the edited tree of an older version of it if there is one. -/
def parse (p : Parser) (text : Text) (old : Option Tree) (interrupts : Interrupts) :
    Checked ParseResult := do
  Checked.demand p.config.budgetFits
  let outcome := Run.outcome ⟨p.language, p.config, text⟩ interrupts (p.oldRoot old)
  Checked.demand outcome.run.fits
  return {
    tree := ⟨outcome.root, p.language⟩
    warnings := outcome.run.warnings.reverse
    metrics := outcome.run.metrics
    cancelled := outcome.cancelled }

end Parser

end Glr
