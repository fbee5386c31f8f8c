import Glr.Language.Basic
import Glr.Parser.Stack

/-!
# Repairs of a stack

When no stack can go on, the best one is repaired: entries are wrapped in an error until the state
below them can go on, or a token is skipped into an error.  A repair makes a new stack and charges
it for what it did.
-/

namespace Glr

namespace Repair

def missingCost : Nat := 110

def skipCost : Nat := 100

/-- The cost of wrapping a number of entries in an error. -/
def wrapCost (depth : Nat) : Nat := min (500 + min (10 * depth) Size.largest) Size.largest

/-- Trees with the errors among them replaced by what they hold. -/
def flatten : List Green → List Green
  | [] => []
  | g :: gs => if g.isError && !g.isLeaf then g.children ++ flatten gs else g :: flatten gs

/-- An error over trees, with no error directly inside another. -/
def errorNode (children : List Green) : Checked Green :=
  Green.node
    { symbol := Symbol.error
      production := none
      parseState := 0
      lookahead := 0
      dynamicPrecedence := 0
      flags := NodeFlags.none }
    (flatten children)

/-- An error over bytes that are not read as tokens. -/
def errorLeaf (text : Text) : Green :=
  Green.leaf
    { symbol := Symbol.error
      length := Size.ofText text
      extent := Point.extentOf text
      lookahead := 1
      parseState := 0
      lexMode := LexMode.recovery
      flags := NodeFlags.none }

/-- Wrap entries, of which `wrapped` are the nodes taken so far, until the state below has an action
on the lookahead: the stack, and where the wrapped part starts.  `depth` counts the entries
taken. -/
def wrapFrom (l : Language) (s : Stack) (lookahead : Symbol) (wrapped : List Green) (depth : Nat)
    (allowed : Nat) : List StackEntry → Option (Checked (Stack × Nat))
  | [] => none
  | e :: below =>
    if depth ≥ allowed then none
    else
      let wrapped := e.node :: wrapped
      let base := { s with entries := below }
      if l.hasActions base.state lookahead then
        some do
          let node ← errorNode wrapped
          let entry : StackEntry := ⟨base.state, node, s.position, true⟩
          return ((base.push entry).charge (wrapCost (depth + 1)), base.position.offset)
      else wrapFrom l s lookahead wrapped (depth + 1) allowed below

/-- Wrap at most `allowed` entries in an error until the state below them has an action on the
lookahead. -/
def wrap (l : Language) (s : Stack) (lookahead : Symbol) (allowed : Nat) :
    Option (Checked (Stack × Nat)) :=
  wrapFrom l s lookahead [] 0 allowed s.entries

/-- Whether an entry is an extra that is not an error. -/
def isPlainExtra (e : StackEntry) : Bool := e.extra && !e.node.isError

/-- The error at the top of a stack that can take in one more token, with the extras above it: its
trees and theirs, and the entries below. -/
def openError? (s : Stack) : Option (List Green × List StackEntry) :=
  let extras := s.entries.takeWhile isPlainExtra
  match s.entries.dropWhile isPlainExtra with
  | e :: below =>
    if e.extra && e.node.isError && !e.node.isLeaf then
      some (e.node.children ++ (extras.map (·.node)).reverse, below)
    else none
  | [] => none

/-- Push a skipped token inside an error; an error before it, with nothing but extras between, takes
it in. -/
def skip (s : Stack) (leaf : Green) (stop : Position) (cost : Nat) : Checked Stack := do
  let (children, base) :=
    match openError? s with
    | some (children, below) => (children, { s with entries := below })
    | none => ([], s)
  -- Extras between the two errors go inside, so that no text changes its place.
  let node ← errorNode (children ++ [leaf])
  return (base.push ⟨base.state, node, stop, true⟩).charge cost

end Repair

end Glr
