import Glr.Tree.Diff
import Glr.Tree.Edit
import Glr.Tree.Render

/-!
# Trees of a text

A tree is a green tree together with the language it was parsed in.
-/

namespace Glr

/-- A parsed document. -/
structure Tree where
  root : Green
  language : Language

namespace Tree

def rootNode (t : Tree) : Node := Node.root t.root

def textLength (t : Tree) : Nat := t.root.length

def hasError (t : Tree) : Bool := t.root.hasError

def leaves (t : Tree) : List Node := Node.leavesOf t.language t.root

/-- The length of the longest start of a row of `size` flags that are all up, if no flag is up
behind one that is down.  The search halves the row. -/
def bisect (up : Nat → Bool) (low size : Nat) : Nat :=
  if size ≤ 1 then if size = 1 && up low then low + 1 else low
  else
    let half := size / 2
    bisect up (if up (low + half) then low + half else low) (size - half)
termination_by size
decreasing_by omega

/-- The leaf whose bytes hold an offset. -/
def leafAt? (t : Tree) (offset : Nat) : Option Node :=
  let leaves := t.leaves.toArray
  let up (i : Nat) : Bool :=
    match leaves[i]? with
    | some n => n.place.offset ≤ offset
    | none => false
  let after := bisect up 0 leaves.size
  (leaves.toList.take after).reverse.find? fun n => n.span.contains offset

/-- The smallest visible node whose bytes hold an offset. -/
def nodeAt? (t : Tree) (offset : Nat) : Option Node :=
  match t.leafAt? offset with
  | none => none
  | some n => if n.isVisible t.language then some n else n.parent?

def edit (t : Tree) (e : TextEdit) : Checked Tree := do
  let root ← t.root.edit e
  return { t with root }

/-- The ranges where a tree differs from an edited older one. -/
def changedRanges (old new : Tree) : List Span := Green.changedRanges old.root new.root

/-- Whether two trees look alike all the way down. -/
def structurallyEqual (t u : Tree) : Bool := t.root.sameShape u.root

/-- Whether two trees look alike in a range. -/
def structurallyEqualIn (t u : Tree) (range : Span) : Bool :=
  t.root.structurallyEqualIn u.root range

def sexp (t : Tree) : String := t.rootNode.sexp t.language

def dump (t : Tree) (source : Text) : String := t.rootNode.dump t.language source

/-- A tree in writing: its language and its root in brief. -/
def render (t : Tree) : String :=
  "Tree \x7b language: " ++ Text.quoted t.language.name ++ ", root: "
    ++ t.rootNode.render t.language ++ " \x7d"

end Tree

end Glr
