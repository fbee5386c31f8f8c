import Glr.Lexer.Token
import Glr.Parser.Config
import Glr.Parser.Frontier
import Glr.Parser.Repair
import Glr.Parser.Warning
import Glr.Tree.Reuse

/-!
# The state of a parse

What a parse works with, what it has reached, and the small steps that the larger ones are made of:
making and pushing the leaf of a token, noting warnings, and thinning out the live stacks.
-/

namespace Glr

/-- Counts of what a parse did. -/
structure Metrics where
  tokensConsumed : Nat
  nodesCreated : Nat
  /-- Trees taken over from the old tree, leaves included. -/
  nodesReused : Nat
  errorsRecovered : Nat
  maxStackCount : Nat
  deriving Repr, DecidableEq

/-- What recovery has done lately. -/
structure RecoveryState where
  /-- The place of the last repair. -/
  place : Nat
  /-- The repairs made there. -/
  attempts : Nat
  /-- The tokens skipped since the last shift. -/
  skipped : Nat
  deriving Repr, DecidableEq

/-- The limits that a parse has reported; each is reported once. -/
structure Reported where
  parallel : Bool
  ambiguity : Bool
  reductions : Bool
  steps : Bool
  deriving Repr, DecidableEq

namespace Reported

def contains (r : Reported) : Limit → Bool
  | .parallel _ => r.parallel
  | .ambiguity _ => r.ambiguity
  | .reductions _ => r.reductions
  | .steps _ => r.steps

def insert (r : Reported) : Limit → Reported
  | .parallel _ => { r with parallel := true }
  | .ambiguity _ => { r with ambiguity := true }
  | .reductions _ => { r with reductions := true }
  | .steps _ => { r with steps := true }

end Reported

/-- What a parse works with. -/
structure ParseTask where
  language : Language
  config : ParserConfig
  text : Text

/-- The state of a parse between two tokens. -/
structure Run where
  /-- The live stacks. -/
  live : List Stack
  position : Position
  /-- The old tree. -/
  reuse : ReuseCursor
  /-- The warnings so far, the latest first. -/
  warnings : List Warning
  metrics : Metrics
  /-- For how many tokens more than one stack has been alive. -/
  ambiguousFor : Nat
  recovery : RecoveryState
  reported : Reported
  /-- Whether a scanner has asked for the parse to stop. -/
  stopRequested : Bool
  /-- Whether every length, place and precedence was in range. -/
  fits : Bool

/-- The token ahead. -/
structure Lookahead where
  token : Token
  /-- The leaf of the old tree that it was taken from. -/
  reused : Option Green
  start : Position
  stop : Position

/-- How a parse goes on after a step. -/
inductive Flow where
  | more (run : Run)
  | done (root : Green) (run : Run)

def Flow.run : Flow → Run
  | more r => r
  | done _ r => r

namespace Run

/-- The start of a parse with an old tree ahead. -/
def start (reuse : ReuseCursor) : Run where
  live := [Stack.empty]
  position := Position.start
  reuse
  warnings := []
  metrics := ⟨0, 0, 0, 0, 1⟩
  ambiguousFor := 0
  recovery := ⟨0, 0, 0⟩
  reported := ⟨false, false, false, false⟩
  stopRequested := false
  fits := true

/-- Take note of whether a value was in range. -/
def noting {α : Type} (r : Run) (c : Checked α) : Run := { r with fits := r.fits && c.fits }

/-! ## Warnings and counts -/

def warn (r : Run) (problem : Problem) (span : Span) : Run :=
  { r with warnings := ⟨problem, span⟩ :: r.warnings }

/-- Report a limit, unless it was reported before. -/
def report (r : Run) (l : Limit) : Run :=
  if r.reported.contains l then r
  else
    warn { r with reported := r.reported.insert l } (.limit l) (Span.emptyAt r.position.offset)

def countCreated (r : Run) : Run :=
  { r with metrics.nodesCreated := r.metrics.nodesCreated + 1 }

def countReused (r : Run) : Run :=
  { r with metrics.nodesReused := r.metrics.nodesReused + 1 }

def countRecovered (r : Run) : Run :=
  { r with metrics.errorsRecovered := r.metrics.errorsRecovered + 1 }

def noteRepair (r : Run) (problem : Problem) (span : Span) : Run :=
  r.countRecovered.warn problem span

/-! ## Tokens -/

/-- The leaf of the token ahead.  A leaf of the old tree is taken over if it is an extra just as the
new one is. -/
def makeLeaf (r : Run) (la : Lookahead) (parseState : StateId) (flags : NodeFlags) : Green × Run :=
  let fresh :=
    Green.leaf
      { symbol := la.token.symbol
        length := la.token.span.stop - la.token.span.start
        extent := la.token.extent
        lookahead := la.token.lookahead
        parseState
        lexMode := la.token.lexMode
        flags }
  match la.reused with
  | some old =>
    if old.isExtra == flags.extra then (old.withFlags flags, r.countReused)
    else (fresh, r.countCreated)
  | none => (fresh, r.countCreated)

def consume (r : Run) (la : Lookahead) : Run :=
  { r with
    position := la.stop
    metrics.tokensConsumed := r.metrics.tokensConsumed + 1 }

/-- Push the token ahead on every stack as an extra, and charge every stack for it. -/
def shiftExtra (r : Run) (la : Lookahead) (cost : Nat) : Run :=
  let flags := { NodeFlags.onlyExtra with fragile := r.live.length > 1 }
  let parseState :=
    match r.live with
    | s :: _ => s.state
    | [] => 0
  let (leaf, r) := r.makeLeaf la parseState flags
  let pushed (s : Stack) : Stack := (s.push ⟨s.state, leaf, la.stop, true⟩).charge cost
  consume { r with live := r.live.map pushed } la

/-! ## The live stacks -/

/-- Count how long the parse has been ambiguous, and cut it down to one stack if that is too
long. -/
def watchAmbiguity (config : ParserConfig) (r : Run) : Run :=
  if r.live.length > 1 then
    if r.ambiguousFor + 1 > config.maxAmbiguityDepth then
      let r := r.report (.ambiguity config.maxAmbiguityDepth)
      { r with live := Frontier.collapse r.live, ambiguousFor := 0 }
    else { r with ambiguousFor := r.ambiguousFor + 1 }
  else { r with ambiguousFor := 0 }

/-- Merge and prune the stacks that a token was shifted on. -/
def settle (config : ParserConfig) (r : Run) : Run :=
  -- What forked on this token is told apart from what will fork on the next.
  let merged := Frontier.merge (r.live.map fun s => { s with forked := false })
  let r := { r with live := Frontier.prune merged config.maxStacks }
  let r :=
    if Frontier.isCrowded merged config.maxStacks then r.report (.parallel config.maxStacks) else r
  let r := { r with metrics.maxStackCount := max r.metrics.maxStackCount r.live.length }
  r.watchAmbiguity config

end Run

end Glr
