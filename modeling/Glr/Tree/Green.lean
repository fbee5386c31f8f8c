import Glr.Tables.Basic
import Glr.Text.Point
import Glr.Tree.Flags

/-!
# Green trees

A green tree is what a parse builds and an edit transforms: every node knows its symbol, its length
and extent, and how it came about, but not where in the text it stands and not what the text says.
So a tree survives an edit before it unchanged, and trees share what they have in common.

`leaf` and `node` build; the length, the extent, the inherited flags and the dynamic precedence of
an inner node come from its children.  The copies `withFlags`, `withLookahead`, `withChildren` and
`resized` change one thing.  Two nodes have the `sameShape` if they look alike all the way down,
whatever the parser noted on them.
-/

namespace Glr

namespace Level

/-- The sum of two precedence levels. -/
def add (a b : Int) : Checked Int := ⟨a + b, -2147483648 ≤ a + b && a + b ≤ 2147483647⟩

@[simp] theorem value_add (a b : Int) : (add a b).value = a + b := rfl

end Level

/-- What a node is, apart from its children. -/
structure NodeData where
  symbol : Symbol
  length : Nat
  extent : Point
  /-- Bytes behind the node that had a say in how it was built. -/
  lookahead : Nat
  /-- The state on top of the stack before the node was pushed. -/
  parseState : StateId
  /-- The lex mode of the first token. -/
  lexMode : Nat
  /-- The production of an inner node. -/
  production : Option ProductionId
  /-- The dynamic precedences of all productions in the tree together. -/
  dynamicPrecedence : Int
  flags : NodeFlags
  /-- What tells a shared node from one that merely looks like it; a node without a mark is told by
  its place. -/
  mark : Option Nat
  deriving Repr, DecidableEq, Inhabited

inductive Green where
  | mk (data : NodeData) (children : List Green)
  deriving Inhabited, Repr

namespace Green

def data : Green → NodeData
  | mk d _ => d

def children : Green → List Green
  | mk _ cs => cs

def symbol (g : Green) : Symbol := g.data.symbol

def length (g : Green) : Nat := g.data.length

def extent (g : Green) : Point := g.data.extent

def lookahead (g : Green) : Nat := g.data.lookahead

def parseState (g : Green) : StateId := g.data.parseState

def lexMode (g : Green) : Nat := g.data.lexMode

def production (g : Green) : Option ProductionId := g.data.production

def dynamicPrecedence (g : Green) : Int := g.data.dynamicPrecedence

def flags (g : Green) : NodeFlags := g.data.flags

def isError (g : Green) : Bool := g.symbol == Symbol.error

def isMissing (g : Green) : Bool := g.flags.missing

def isExtra (g : Green) : Bool := g.flags.extra

def isFragile (g : Green) : Bool := g.flags.fragile

def isDamaged (g : Green) : Bool := g.flags.damaged

def hasError (g : Green) : Bool := g.flags.hasError

/-- Whether the node has no children; an empty reduction is a leaf as much as a token is. -/
def isLeaf (g : Green) : Bool := g.children.isEmpty

/-- Whether two nodes are known to be one. -/
def isSame (g h : Green) : Bool := g.data.mark.isSome && g.data.mark == h.data.mark

/-! ## Building -/

/-- What a new leaf is made of. -/
structure LeafSpec where
  symbol : Symbol
  length : Nat
  extent : Point
  lookahead : Nat
  parseState : StateId
  lexMode : Nat
  flags : NodeFlags
  deriving Repr

/-- What a new inner node is made of, apart from its children. -/
structure NodeSpec where
  symbol : Symbol
  production : Option ProductionId
  parseState : StateId
  lookahead : Nat
  dynamicPrecedence : Int
  flags : NodeFlags
  deriving Repr

/-- A leaf; an error or missing leaf has an error. -/
def leaf (spec : LeafSpec) : Green :=
  let wrong := spec.symbol == Symbol.error || spec.flags.missing
  mk
    { symbol := spec.symbol
      length := spec.length
      extent := spec.extent
      lookahead := spec.lookahead
      parseState := spec.parseState
      lexMode := spec.lexMode
      production := none
      dynamicPrecedence := 0
      flags := { spec.flags with hasError := spec.flags.hasError || wrong }
      mark := none }
    []

/-- The length of trees side by side. -/
def totalLength (gs : List Green) : Checked Nat :=
  gs.foldlM (fun n g => Size.add n g.length) 0

/-- The extent of trees side by side. -/
def totalExtent (gs : List Green) : Checked Point :=
  gs.foldlM (fun p g => p.advanceChecked g.extent) Point.zero

/-- The dynamic precedences of trees on top of a given one. -/
def totalPrecedence (base : Int) (gs : List Green) : Checked Int :=
  gs.foldlM (fun n g => Level.add n g.dynamicPrecedence) base

/-- The flags that a node takes over from its children. -/
def inheritedFlags (gs : List Green) : NodeFlags :=
  gs.foldl (fun f g => f.union g.flags.inherited) NodeFlags.none

/-- The lex mode of the first child that is not empty. -/
def firstLexMode (gs : List Green) : Nat :=
  match gs.find? fun g => g.length > 0 with
  | some g => g.lexMode
  | none => 65535

/-- An inner node over its children; an error has an error. -/
def node (spec : NodeSpec) (children : List Green) : Checked Green := do
  let length ← totalLength children
  let extent ← totalExtent children
  let dynamicPrecedence ← totalPrecedence spec.dynamicPrecedence children
  let flags := spec.flags.union (inheritedFlags children)
  return mk
    { symbol := spec.symbol
      length
      extent
      lookahead := spec.lookahead
      parseState := spec.parseState
      lexMode := firstLexMode children
      production := spec.production
      dynamicPrecedence
      flags := { flags with hasError := flags.hasError || spec.symbol == Symbol.error }
      mark := none }
    children

/-! ## Copies -/

/-- The node with flags added; it is the same node if it has them already. -/
def withFlags (g : Green) (f : NodeFlags) : Green :=
  if g.flags.contains f then g
  else mk { g.data with flags := g.flags.union f, mark := none } g.children

/-- The node with another lookahead; it is the same node if that is its lookahead. -/
def withLookahead (g : Green) (n : Nat) : Green :=
  if g.lookahead = n then g else mk { g.data with lookahead := n, mark := none } g.children

/-- The node over other children, with flags added. -/
def withChildren (g : Green) (children : List Green) (f : NodeFlags) : Checked Green := do
  let length ← totalLength children
  let extent ← totalExtent children
  return mk
    { g.data with
      length
      extent
      flags := (f.union g.flags).union (inheritedFlags children)
      mark := none }
    children

/-- The node with another length and extent, and with flags added. -/
def resized (g : Green) (length : Nat) (extent : Point) (f : NodeFlags) : Green :=
  mk { g.data with length, extent, flags := g.flags.union f, mark := none } g.children

/-! ## Walks -/

mutual

/-- The first leaf that is not empty. -/
def firstLeaf? : Green → Option Green
  | mk d cs =>
    if d.length = 0 then none
    else if cs.isEmpty then some (mk d cs)
    else firstLeafIn? cs

/-- The first leaf of the first tree that is not empty. -/
def firstLeafIn? : List Green → Option Green
  | [] => none
  | g :: gs => if g.length > 0 then firstLeaf? g else firstLeafIn? gs

end

mutual

/-- The leaves in order, in front of a list. -/
def leavesOnto (after : List Green) : Green → List Green
  | mk d cs => if cs.isEmpty then mk d cs :: after else leavesOntoIn after cs

/-- The leaves of several trees in order, in front of a list. -/
def leavesOntoIn (after : List Green) : List Green → List Green
  | [] => after
  | g :: gs => leavesOnto (leavesOntoIn after gs) g

end

def leaves (g : Green) : List Green := g.leavesOnto []

mutual

/-- The nodes with their depths, each before its children, in front of a list. -/
def preorderOnto (depth : Nat) (after : List (Nat × Green)) : Green → List (Nat × Green)
  | mk d cs => (depth, mk d cs) :: preorderOntoIn (depth + 1) after cs

/-- The nodes of several trees with their depths, in front of a list. -/
def preorderOntoIn (depth : Nat) (after : List (Nat × Green)) : List Green → List (Nat × Green)
  | [] => after
  | g :: gs => preorderOnto depth (preorderOntoIn depth after gs) g

end

/-- The nodes with their depths, each before its children. -/
def preorder (g : Green) : List (Nat × Green) := g.preorderOnto 0 []

/-- Whether two nodes look alike, their children apart. -/
def looksLike (g h : Green) : Bool :=
  g.symbol == h.symbol && g.length == h.length && g.flags.shape == h.flags.shape

mutual

/-- Whether two trees look alike all the way down. -/
def sameShape : Green → Green → Bool
  | mk d cs, h => looksLike (mk d cs) h && sameShapes cs h.children

/-- Whether two lists of trees look alike one by one. -/
def sameShapes : List Green → List Green → Bool
  | [], [] => true
  | g :: gs, h :: hs => sameShape g h && sameShapes gs hs
  | _, _ => false

end

/-! ## Marks -/

mutual

/-- Give every node without a mark one of its own, counting up: the tree, and the next mark. -/
def markAll (next : Nat) : Green → Green × Nat
  | mk d cs =>
    let (cs, next) := markAllIn next cs
    match d.mark with
    | some _ => (mk d cs, next)
    | none => (mk { d with mark := some next } cs, next + 1)

def markAllIn (next : Nat) : List Green → List Green × Nat
  | [] => ([], next)
  | g :: gs =>
    let (g, next) := markAll next g
    let (gs, next) := markAllIn next gs
    (g :: gs, next)

end

/-- A node in writing, its children counted. -/
def render (g : Green) : String :=
  "GreenNode \x7b symbol: Symbol(" ++ toString g.symbol ++ "), text_len: TextSize("
    ++ toString g.length ++ "), flags: NodeFlags(" ++ toString g.flags.toBits ++ "), children: "
    ++ toString g.children.length ++ " \x7d"

end Green

end Glr
