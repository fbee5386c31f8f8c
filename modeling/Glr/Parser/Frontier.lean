import Glr.Parser.Stack

/-!
# The frontier

The live stacks of a parse compete.  Stacks that went through the same states are merged into the
best of them, the number of stacks is capped, and a fork that stays unresolved is cut down to its
best stack.  Each choice depends on the ranks and the order of the stacks and on nothing else.
-/

namespace Glr

namespace Frontier

/-- A stack among others: where it stands in their order, and its outline, by which most stacks
with other states are told apart at once. -/
structure Contender where
  place : Nat
  outline : StateId × Nat
  stack : Stack

/-- The stacks in their order. -/
def contenders (live : List Stack) : List Contender :=
  live.zipIdx.map fun (s, place) => ⟨place, s.outline, s⟩

/-- Add a stack to merged ones: if there is one with the same states, the better of the two stands
in its place, and otherwise the stack comes last. -/
def mergeInto (c : Contender) : List Contender → List Contender
  | [] => [c]
  | d :: ds =>
    if d.stack.sameStates c.stack then
      (if c.stack.beats d.stack then { c with place := d.place } else d) :: ds
    else d :: mergeInto c ds

/-- One of the stacks for each sequence of states: the best, and of equals the earliest. -/
def mergeGroup (group : List Contender) : List Contender :=
  group.foldl (fun merged c => mergeInto c merged) []

/-- Outlines are ordered by depth, then by state. -/
def outlineLe (c d : Contender) : Bool :=
  c.outline.2 < d.outline.2 || (c.outline.2 == d.outline.2 && c.outline.1 ≤ d.outline.1)

/-- One stack for each sequence of states, in order of first appearance: the best, and of equals
the earliest.  Only stacks with one outline are compared. -/
def merge (live : List Stack) : List Stack :=
  if live.length ≤ 1 then live
  else
    -- Sorting brings stacks that may be alike together; the places bring back their order.
    let groups := ((contenders live).mergeSort outlineLe).splitBy fun c d => c.outline == d.outline
    ((groups.flatMap mergeGroup).mergeSort fun c d => c.place ≤ d.place).map (·.stack)

/-- The better of a stack and those after it; of equals the earliest. -/
def bestFrom (best : Stack) : List Stack → Stack
  | [] => best
  | s :: ss => bestFrom (if s.beats best then s else best) ss

/-- The best stack, if there is one; of equals the earliest. -/
def best? : List Stack → Option Stack
  | [] => none
  | s :: ss => some (bestFrom s ss)

def collapse (live : List Stack) : List Stack := (best? live).toList

def isCrowded (live : List Stack) (allowed : Nat) : Bool := live.length > allowed

/-- The best stacks in order, as many as allowed but at least one; if there are no more than
allowed, all of them as they are. -/
def prune (live : List Stack) (allowed : Nat) : List Stack :=
  if isCrowded live allowed then
    (live.mergeSort fun s t => !t.beats s).take (max allowed 1)
  else live

end Frontier

end Glr
