import Glr.Text.Span
import Glr.Tree.Green

/-!
# Parse stacks

A stack holds the nodes built so far, each with the state the automaton was in after it and with the
place where it ends.  Extras and errors are pushed without a change of state.  A stack also carries
what it is ranked by when it competes with others: its errors, its dynamic precedence, and how often
it took a less preferred action of a conflict.
-/

namespace Glr

/-- A place in a text, in bytes and as row and column. -/
structure Position where
  offset : Nat
  point : Point
  deriving Repr, DecidableEq, Inhabited

namespace Position

def start : Position := ⟨0, Point.zero⟩

/-- The place behind a node. -/
def advance (p : Position) (g : Green) : Checked Position := do
  let offset ← Size.add p.offset g.length
  let point ← p.point.advanceChecked g.extent
  return ⟨offset, point⟩

end Position

structure StackEntry where
  /-- The state after the node. -/
  state : StateId
  node : Green
  /-- The place behind the node. -/
  stop : Position
  /-- Whether the node was pushed without a change of state. -/
  extra : Bool
  deriving Inhabited

/-- A stack and its rank. -/
structure Stack where
  /-- The entries from the top down. -/
  entries : List StackEntry
  errorCost : Nat
  dynamicPrecedence : Int
  /-- The positions of the actions taken in cells with several, added up. -/
  preference : Nat
  /-- Whether the stack took one of several actions on the current token. -/
  forked : Bool
  deriving Inhabited

namespace Stack

def empty : Stack := ⟨[], 0, 0, 0, false⟩

/-- The state of a stack; the bottom is state zero. -/
def state (s : Stack) : StateId :=
  match s.entries with
  | [] => 0
  | e :: _ => e.state

/-- The place behind all nodes of a stack. -/
def position (s : Stack) : Position :=
  match s.entries with
  | [] => Position.start
  | e :: _ => e.stop

def depth (s : Stack) : Nat := s.entries.length

def push (s : Stack) (e : StackEntry) : Stack := { s with entries := e :: s.entries }

/-- The nodes from the bottom up. -/
def nodes (s : Stack) : List Green := (s.entries.map (·.node)).reverse

def charge (s : Stack) (cost : Nat) : Stack := { s with errorCost := s.errorCost + cost }

/-- Whether two lists of entries went through the same states with the same extras. -/
def sameEntries : List StackEntry → List StackEntry → Bool
  | [], [] => true
  | a :: as, b :: bs => a.state == b.state && a.extra == b.extra && sameEntries as bs
  | _, _ => false

/-- Whether two stacks went through the same states with the same extras. -/
def sameStates (s t : Stack) : Bool := sameEntries s.entries t.entries

def outline (s : Stack) : StateId × Nat := (s.state, s.depth)

/-- Stacks with the same states have one outline. -/
theorem outline_eq_of_sameStates {s t : Stack} (same : s.sameStates t = true) :
    s.outline = t.outline := by
  unfold outline state depth
  unfold sameStates at same
  generalize s.entries = xs, t.entries = ys at same ⊢
  induction xs, ys using sameEntries.induct with
  | case1 => rfl
  | case2 a as b bs ih =>
    simp only [sameEntries, Bool.and_eq_true, beq_iff_eq] at same
    have below := congrArg Prod.snd (ih same.2)
    simp_all
  | case3 as bs notNil notCons =>
    simp [sameEntries] at same

/-- The better stack has fewer errors, or else the higher dynamic precedence, or else took the more
preferred actions. -/
protected def compare (s t : Stack) : Ordering :=
  (compare s.errorCost t.errorCost).then
    ((compare t.dynamicPrecedence s.dynamicPrecedence).then
      (compare s.preference t.preference))

/-- Whether a stack is ranked strictly before another. -/
def beats (s t : Stack) : Bool := s.compare t == .lt

end Stack

end Glr
