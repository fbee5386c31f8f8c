import Glr.Language.Basic
import Glr.Text.Span
import Glr.Tree.Green

/-!
# Nodes

A node is a green tree seen at its place in a document, together with its visible ancestors.  Nodes
show only what is visible: a hidden inner node gives way to its own children, and a hidden token is
left out.

A node is told from others by its place in the tree, or by its mark if the green tree carries one.
-/

namespace Glr

/-- A green tree at a place of a document; the address lists the positions among siblings that lead
to it, innermost first. -/
structure Place where
  green : Green
  offset : Nat
  position : Point
  address : List Nat
  deriving Inhabited

/-- A node: its place, and the places of its visible ancestors, the nearest first. -/
structure Node where
  place : Place
  above : List Place
  deriving Inhabited

namespace Place

/-- Whether two places hold one and the same green tree at one offset. -/
def same (p q : Place) : Bool :=
  p.offset == q.offset &&
    match p.green.data.mark, q.green.data.mark with
    | none, none => p.address == q.address
    | m, n => m == n

def span (p : Place) : Span := Span.ofLength p.offset p.green.length

end Place

namespace Node

def root (g : Green) : Node := ⟨⟨g, 0, Point.zero, []⟩, []⟩

def green (n : Node) : Green := n.place.green

def symbol (n : Node) : Symbol := n.green.symbol

def span (n : Node) : Span := n.place.span

def startPosition (n : Node) : Point := n.place.position

def endPosition (n : Node) : Point := n.place.position.advance n.green.extent

/-- The name of a node's symbol. -/
def kind (l : Language) (n : Node) : String := l.symbolName n.symbol

def isNamed (l : Language) (n : Node) : Bool := l.isNamed n.symbol

def isVisible (l : Language) (n : Node) : Bool := l.isVisible n.symbol

/-- The nearest visible ancestor. -/
def parent? (n : Node) : Option Node :=
  match n.above with
  | [] => none
  | p :: ps => some ⟨p, ps⟩

/-- The visible ancestors of places, the nearest first. -/
def ofPlaces : List Place → List Node
  | [] => []
  | p :: ps => ⟨p, ps⟩ :: ofPlaces ps

/-- The visible ancestors, the nearest first. -/
def ancestors (n : Node) : List Node := ofPlaces n.above

/-! ## Children -/

mutual

/-- The visible nodes nearest to a place downwards, in front of a list. -/
def visibleOnto (l : Language) (above : List Place) (after : List Node) (offset : Nat)
    (position : Point) (address : List Nat) : Green → List Node
  | .mk d cs =>
    if l.isVisible d.symbol then ⟨⟨.mk d cs, offset, position, address⟩, above⟩ :: after
    else visibleOntoIn l above after offset position address 0 cs

/-- The nearest visible nodes of trees side by side, of which the first has a given index. -/
def visibleOntoIn (l : Language) (above : List Place) (after : List Node) (offset : Nat)
    (position : Point) (address : List Nat) (index : Nat) : List Green → List Node
  | [] => after
  | g :: gs =>
    visibleOnto l above
      (visibleOntoIn l above after (offset + g.length) (position.advance g.extent) address
        (index + 1) gs)
      offset position (index :: address) g

end

def children (l : Language) (n : Node) : List Node :=
  visibleOntoIn l (n.place :: n.above) [] n.place.offset n.place.position n.place.address 0
    n.green.children

def child? (l : Language) (n : Node) (index : Nat) : Option Node := (n.children l)[index]?

def namedChildren (l : Language) (n : Node) : List Node := (n.children l).filter (·.isNamed l)

def namedChild? (l : Language) (n : Node) (index : Nat) : Option Node := (n.namedChildren l)[index]?

def firstChild? (l : Language) (n : Node) : Option Node := (n.children l).head?

def lastChild? (l : Language) (n : Node) : Option Node := (n.children l).getLast?

/-- The first visible child of a kind. -/
def childByKind? (l : Language) (n : Node) (kind : String) : Option Node :=
  (n.children l).find? fun c => c.kind l == kind

/-- The position of a node among its siblings, and the siblings. -/
def siblings? (l : Language) (n : Node) : Option (Nat × List Node) := do
  let parent ← n.parent?
  let siblings := parent.children l
  let index ← siblings.findIdx? fun s => s.place.same n.place
  return (index, siblings)

def nextSibling? (l : Language) (n : Node) : Option Node := do
  let (index, siblings) ← n.siblings? l
  siblings[index + 1]?

def prevSibling? (l : Language) (n : Node) : Option Node := do
  let (index, siblings) ← n.siblings? l
  if index = 0 then none else siblings[index - 1]?

/-! ## Descendants -/

mutual

/-- The visible nodes in a tree, each before those below it, in front of a list. -/
def descendantsOnto (l : Language) (above : List Place) (after : List Node) (offset : Nat)
    (position : Point) (address : List Nat) : Green → List Node
  | .mk d cs =>
    if l.isVisible d.symbol then
      let place : Place := ⟨.mk d cs, offset, position, address⟩
      ⟨place, above⟩ :: descendantsOntoIn l (place :: above) after offset position address 0 cs
    else descendantsOntoIn l above after offset position address 0 cs

/-- The visible nodes in trees side by side. -/
def descendantsOntoIn (l : Language) (above : List Place) (after : List Node) (offset : Nat)
    (position : Point) (address : List Nat) (index : Nat) : List Green → List Node
  | [] => after
  | g :: gs =>
    descendantsOnto l above
      (descendantsOntoIn l above after (offset + g.length) (position.advance g.extent) address
        (index + 1) gs)
      offset position (index :: address) g

end

/-- The node and the visible nodes below it, each before those below it. -/
def descendants (l : Language) (n : Node) : List Node :=
  n :: descendantsOntoIn l (n.place :: n.above) [] n.place.offset n.place.position n.place.address 0
    n.green.children

/-- Whether a search for a range may go down into a child: it covers the range, is not empty, and
holds the place of a range that is. -/
def fits (child range : Span) : Bool :=
  child.covers range && (!range.isEmpty || child.contains range.start) && !child.isEmpty

mutual

/-- The smallest visible node over a range in a tree. -/
def smallestOver? (l : Language) (range : Span) (above : List Place) (offset : Nat)
    (position : Point) (address : List Nat) : Green → Option Node
  | .mk d cs =>
    if l.isVisible d.symbol then
      let place : Place := ⟨.mk d cs, offset, position, address⟩
      if fits place.span range then
        match smallestOverIn? l range (place :: above) offset position address 0 cs with
        | some n => some n
        | none => some ⟨place, above⟩
      else none
    else smallestOverIn? l range above offset position address 0 cs

/-- The smallest visible node over a range in the first of trees side by side that covers it. -/
def smallestOverIn? (l : Language) (range : Span) (above : List Place) (offset : Nat)
    (position : Point) (address : List Nat) (index : Nat) : List Green → Option Node
  | [] => none
  | g :: gs =>
    match smallestOver? l range above offset position (index :: address) g with
    | some n => some n
    | none =>
      smallestOverIn? l range above (offset + g.length) (position.advance g.extent) address
        (index + 1) gs

end

/-- The smallest visible node that covers a range, the node itself included. -/
def descendantForRange? (l : Language) (n : Node) (range : Span) : Option Node :=
  if n.span.covers range then
    match smallestOverIn? l range (n.place :: n.above) n.place.offset n.place.position
        n.place.address 0 n.green.children with
    | some m => some m
    | none => some n
  else none

/-! ## Leaves -/

mutual

/-- The leaves of a tree with their visible ancestors, in front of a list. -/
def leavesOnto (l : Language) (above : List Place) (after : List Node) (offset : Nat)
    (position : Point) (address : List Nat) : Green → List Node
  | .mk d cs =>
    let place : Place := ⟨.mk d cs, offset, position, address⟩
    if cs.isEmpty then ⟨place, above⟩ :: after
    else if l.isVisible d.symbol then
      leavesOntoIn l (place :: above) after offset position address 0 cs
    else leavesOntoIn l above after offset position address 0 cs

/-- The leaves of trees side by side. -/
def leavesOntoIn (l : Language) (above : List Place) (after : List Node) (offset : Nat)
    (position : Point) (address : List Nat) (index : Nat) : List Green → List Node
  | [] => after
  | g :: gs =>
    leavesOnto l above
      (leavesOntoIn l above after (offset + g.length) (position.advance g.extent) address
        (index + 1) gs)
      offset position (index :: address) g

end

/-- Every leaf of a tree in order, hidden ones included; the root counts as visible. -/
def leavesOf (l : Language) (g : Green) : List Node :=
  let root := Node.root g
  if g.isLeaf then [root]
  else leavesOntoIn l [root.place] [] 0 Point.zero [] 0 g.children

/-! ## Text -/

/-- The text of a node, if its bytes are there and valid. -/
def text? (n : Node) (source : Text) : Option String :=
  let s := n.span
  if s.stop ≤ source.size then Utf8.decode? (source.extract s.start s.stop) else none

/-- A node in brief: its kind and its range. -/
def render (l : Language) (n : Node) : String := n.kind l ++ "@" ++ n.span.render

end Node

end Glr
