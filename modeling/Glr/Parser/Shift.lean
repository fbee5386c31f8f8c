import Glr.Parser.Run

/-!
# Shifts

Once every stack is reduced, the token ahead is pushed on those that can shift it, and the stacks
are thinned out.  If one stack is left and the token comes from the old tree, the largest subtree of
the old tree that starts with the token and was built in the same state is pushed whole instead.
-/

namespace Glr

namespace Run

/-- Whether a subtree of the old tree can be pushed in a state. -/
def isReusable (state : StateId) (g : Green) : Bool :=
  !g.isDamaged && !g.hasError && !g.isFragile && g.parseState == state
    && match g.firstLeaf? with
      | some leaf => !leaf.isExtra
      | none => false

/-- The outermost inner node at an offset that can be pushed in a state, with the state to go to,
and the cursor at it. -/
def reusableNode (l : Language) (state : StateId) (offset : Nat) (cursor : ReuseCursor) :
    Option (Green × StateId) × ReuseCursor :=
  match _h : cursor.seek offset with
  | (none, cursor) => (none, cursor)
  | (some g, cursor) =>
    -- A leaf is the token ahead itself, and is pushed as that.
    if g.isLeaf then (none, cursor)
    else
      match if isReusable state g then l.goto? state g.symbol else none with
      | some target => (some (g, target), cursor)
      | none => reusableNode l state offset cursor.descend
termination_by ReuseCursor.weight cursor.ahead
decreasing_by exact ReuseCursor.weight_descend_lt _h

/-- The subtree to push in place of the token ahead.  Only the one stack that is left, and only if
it did not fork, takes over a subtree. -/
def subtree (l : Language) (r : Run) (la : Lookahead) (shifts : List (Stack × StateId)) :
    Option (Stack × Green × StateId) × Run :=
  match shifts with
  | [(s, _)] =>
    if s.forked || la.reused.isNone then (none, r)
    else
      let (found, cursor) := reusableNode l s.state la.start.offset r.reuse
      (found.map fun (g, target) => (s, g, target), { r with reuse := cursor })
  | _ => (none, r)

def pushSubtree (r : Run) (la : Lookahead) (s : Stack) (g : Green) (target : StateId) : Run :=
  let stop := la.start.advance g
  let level := Level.add s.dynamicPrecedence g.dynamicPrecedence
  let pushed :=
    { s with dynamicPrecedence := level.value }.push ⟨target, g, stop.value, false⟩
  { ((r.noting stop).noting level).countReused with
    live := [pushed]
    position := stop.value }

/-- Push the token ahead on stacks, each with the state to go to. -/
def pushToken (r : Run) (la : Lookahead) (shifts : List (Stack × StateId)) : Run :=
  let fragile := shifts.length > 1 || shifts.any fun (s, _) => s.forked
  -- The stacks share one leaf, which can note one state only.
  let parseState :=
    match shifts with
    | (s, _) :: _ => s.state
    | [] => 0
  let (leaf, r) := r.makeLeaf la parseState (NodeFlags.fragileIf fragile)
  let live := shifts.map fun (s, target) => s.push ⟨target, leaf, la.stop, false⟩
  consume { r with live } la

def shiftAll (task : ParseTask) (r : Run) (la : Lookahead) (shifts : List (Stack × StateId)) :
    Run :=
  let r := { r with recovery.skipped := 0 }
  match r.subtree task.language la shifts with
  | (some (s, g, target), r) => (r.pushSubtree la s g target).settle task.config
  | (none, r) => (r.pushToken la shifts).settle task.config

/-- The root of a stack that accepts.  Extras around the one node of the start symbol become its
first and last children; a root made that way is not used again. -/
def accept (l : Language) (s : Stack) : Checked Green :=
  let entries := s.entries.reverse
  let before := entries.takeWhile (·.extra)
  match entries.dropWhile (·.extra) with
  | [] => Repair.errorNode s.nodes
  | main :: after =>
    -- Anything else than the start symbol among extras is no sentence.
    if after.all (·.extra) && main.node.symbol == l.startSymbol then
      if before.isEmpty && after.isEmpty then pure main.node
      else
        main.node.withChildren
          (before.map (·.node) ++ main.node.children ++ after.map (·.node))
          NodeFlags.onlyFragile
    else Repair.errorNode s.nodes

end Run

end Glr
