import Glr.Regex.Pattern
import Glr.Regex.Escape

/-!
# Reading patterns

A pattern is written with literal characters, `.`, bracketed classes, escapes, groups, alternation
and repetition.  `Pattern.read?` gives what is written, in normal form, or nothing if the text is
malformed: a bracket or brace without its partner, a repetition of nothing, a range or a count that
runs backwards, an unknown escape or group, or a nesting deeper than `nestLimit`.

The syntax of patterns has more than that: anchors, flags, names for groups and for sets of
characters, and operations on classes.  The reader knows none of it and refuses a text with any of
it in, like a malformed one.  `PatternSyntax` is what the rest of a grammar asks of a reader, so
what does not depend on the part of the syntax can be said of all of it.

The reader keeps a stack of open groups.  Every step takes at least one character, so it ends with
the pattern.
-/

namespace Glr.Pattern

/-- Constructs may stand inside one another at most this deep. -/
def nestLimit : Nat := 250

/-- A pattern that is read, and how deeply its constructs are nested. -/
structure Nested where
  pattern : Pattern
  depth : Nat

/-- A group being read: its number, if it has one, the finished branches and the pieces of the
current one, both with the latest first. -/
structure Group where
  number : Option Nat
  branches : List Nested
  pieces : List Nested

namespace Group

/-- A group of which nothing is read. -/
def start (number : Option Nat) : Group := ⟨number, [], []⟩

/-- The greatest depth of a list. -/
def deepest (items : List Nested) : Nat := items.foldl (fun d i => max d i.depth) 0

/-- The current branch: a sequence of pieces is a construct of its own if there are two. -/
def branch (g : Group) : Nested :=
  ⟨concat (g.pieces.reverse.map (·.pattern)),
    deepest g.pieces + if g.pieces.length > 1 then 1 else 0⟩

/-- Add a piece to the current branch. -/
def push (g : Group) (piece : Nested) : Group := { g with pieces := piece :: g.pieces }

/-- End the current branch. -/
def nextBranch (g : Group) : Group := { g with branches := g.branch :: g.branches, pieces := [] }

/-- What is inside the whole group: a choice of branches is a construct of its own if there are
two. -/
def content (g : Group) : Nested :=
  let branches := g.branch :: g.branches
  ⟨choice (branches.reverse.map (·.pattern)),
    deepest branches + if branches.length > 1 then 1 else 0⟩

/-- The whole group as a construct. -/
def close (g : Group) : Nested :=
  let inner := g.content
  match g.number with
  | some n => ⟨group n inner.pattern, inner.depth + 1⟩
  | none => ⟨inner.pattern, inner.depth + 1⟩

end Group

/-- What a backslash and the characters after it stand for. -/
inductive Escaped where
  | literal (c : Char)
  | set (s : CharSet)

/-- The value of a hexadecimal digit. -/
def hexValue? (c : Char) : Option Nat :=
  if '0' ≤ c && c ≤ '9' then some (c.toNat - '0'.toNat)
  else if 'a' ≤ c && c ≤ 'f' then some (c.toNat - 'a'.toNat + 10)
  else if 'A' ≤ c && c ≤ 'F' then some (c.toNat - 'A'.toNat + 10)
  else none

/-- The character with a code, unless that is a surrogate or too large. -/
def charOfCode? (code : Nat) : Option Char :=
  if h : code.isValidChar then some (Char.ofNatAux code h) else none

/-- The code written with exactly `count` digits, and what follows. -/
def readHexFixed : Nat → Nat → List Char → Option (Nat × List Char)
  | 0, code, cs => some (code, cs)
  | _ + 1, _, [] => none
  | n + 1, code, c :: cs => do
    let d ← hexValue? c
    readHexFixed n (code * 16 + d) cs

/-- The code written in digits up to a closing brace, and what follows. -/
def readHexBraced (seen : Bool) (code : Nat) : List Char → Option (Nat × List Char)
  | [] => none
  | '\x7d' :: cs => if seen then some (code, cs) else none
  | c :: cs => do
    let d ← hexValue? c
    readHexBraced true (code * 16 + d) cs

/-- A character by its code, after the letter that announces `count` digits or braces. -/
def readCode (count : Nat) : List Char → Option (Escaped × List Char)
  | '\x7b' :: cs => do
    let (code, cs) ← readHexBraced false 0 cs
    return (.literal (← charOfCode? code), cs)
  | cs => do
    let (code, cs) ← readHexFixed count 0 cs
    return (.literal (← charOfCode? code), cs)

/-- Whether a backslash may stand before a character to no effect: ASCII that is no letter or digit,
except the angle brackets. -/
def isEscapable (c : Char) : Bool :=
  Regex.isMeta c || (c.toNat < 0x80 && !c.isAlphanum && c != '<' && c != '>')

/-- What follows a backslash. -/
def readEscape : List Char → Option (Escaped × List Char)
  | [] => none
  | 's' :: cs => some (.set .space, cs)
  | 'S' :: cs => some (.set CharSet.space.complement, cs)
  | 'a' :: cs => some (.literal '\x07', cs)
  | 'f' :: cs => some (.literal '\x0C', cs)
  | 't' :: cs => some (.literal '\t', cs)
  | 'n' :: cs => some (.literal '\n', cs)
  | 'r' :: cs => some (.literal '\r', cs)
  | 'v' :: cs => some (.literal '\x0B', cs)
  | 'x' :: cs => readCode 2 cs
  | 'u' :: cs => readCode 4 cs
  | 'U' :: cs => readCode 8 cs
  | c :: cs => if isEscapable c then some (.literal c, cs) else none

/-- A bracketed class being read. -/
structure ClassFrame where
  negated : Bool
  set : CharSet
  items : Nat
  depth : Nat

namespace ClassFrame

def add (f : ClassFrame) (s : CharSet) (depth : Nat) : ClassFrame :=
  { f with set := f.set.union s, items := f.items + 1, depth := max f.depth depth }

def close (f : ClassFrame) : CharSet := if f.negated then f.set.complement else f.set

/-- The depth of a class: the brackets count, and so do two or more items. -/
def closeDepth (f : ClassFrame) : Nat := f.depth + (if f.items > 1 then 1 else 0) + 1

end ClassFrame

/-- Dashes at the start of a class stand for themselves. -/
def readLeadingDashes (f : ClassFrame) : List Char → ClassFrame × List Char
  | '-' :: cs => readLeadingDashes (f.add (.single '-') 0) cs
  | cs => (f, cs)

/-- What follows the opening bracket of a class up to its first ordinary item: a caret negates, and
a closing bracket in first place stands for itself. -/
def openClass (cs : List Char) : ClassFrame × List Char :=
  let (negated, cs) := match cs with
    | '^' :: cs => (true, cs)
    | cs => (false, cs)
  let (f, cs) := readLeadingDashes ⟨negated, .none, 0, 0⟩ cs
  match f.items, cs with
  | 0, ']' :: cs => (f.add (.single ']') 0, cs)
  | _, cs => (f, cs)

/-- One end of a range, or an item that stands alone. -/
def readClassItem : List Char → Option (Escaped × List Char)
  | [] => none
  | '\\' :: cs => readEscape cs
  | c :: cs => some (.literal c, cs)

/-- An item of a class or a range of them. -/
def readClassRange (cs : List Char) : Option (CharSet × List Char) := do
  let (first, cs) ← readClassItem cs
  let alone := match first with
    | .literal c => CharSet.single c
    | .set s => s
  match cs with
  | '-' :: ']' :: _ => return (alone, cs)
  | '-' :: '-' :: _ => return (alone, cs)
  | '-' :: cs =>
    let (last, cs) ← readClassItem cs
    match first, last with
    | .literal a, .literal b => if a ≤ b then return (.range a b, cs) else none
    | _, _ => none
  | cs => return (alone, cs)

/-- Whether a character and those behind it start an operation on classes: an intersection or a
difference, or the name of a class. -/
def isClassOperation (c : Char) : List Char → Bool
  | [] => false
  | d :: _ => [('&', '&'), ('-', '-'), ('~', '~'), ('[', ':')].contains (c, d)

/-- The items of a class, up to the bracket that closes the outermost one. -/
def readClassFrom (f : ClassFrame) (outer : List ClassFrame) :
    List Char → Option (CharSet × Nat × List Char)
  | [] => none
  | c :: cs =>
    if c = ']' then
      match outer with
      | [] => some (f.close, f.closeDepth, cs)
      | o :: os => readClassFrom (o.add f.close f.closeDepth) os cs
    else if isClassOperation c cs then none
    else if c = '[' then
      let (inner, left) := openClass cs
      -- What is left is never longer than what was there; the check only shows that reading ends.
      if _h : left.length ≤ cs.length then readClassFrom inner (f :: outer) left else none
    else
      match readClassRange (c :: cs) with
      | some (s, left) =>
        if _h : left.length ≤ cs.length then readClassFrom (f.add s 0) outer left else none
      | none => none
termination_by cs => cs.length

/-- A decimal number with blanks around it; it must have a digit and fit 32 bits. -/
def readCount (cs : List Char) : Option (Nat × List Char) :=
  let isBlank (c : Char) : Bool := CharSet.space.contains c.toNat
  let cs := cs.dropWhile isBlank
  let digits := cs.takeWhile (·.isDigit)
  let value := digits.foldl (fun n d => n * 10 + (d.toNat - '0'.toNat)) 0
  if digits.isEmpty || value > 0xFFFFFFFF then none
  else some (value, (cs.dropWhile (·.isDigit)).dropWhile isBlank)

/-- The bounds of a counted repetition, after its opening brace. -/
def readBounds (cs : List Char) : Option (Nat × Option Nat × List Char) := do
  let (least, cs) ← readCount cs
  match cs with
  | '\x7d' :: cs => return (least, some least, cs)
  | ',' :: '\x7d' :: cs => return (least, none, cs)
  | ',' :: cs =>
    let (greatest, cs) ← readCount cs
    match cs with
    | '\x7d' :: cs => if least ≤ greatest then return (least, some greatest, cs) else none
    | _ => none
  | _ => none

/-- Whether a repetition is marked as lazy, and what follows the mark. -/
def readLazy : List Char → Bool × List Char
  | '?' :: cs => (true, cs)
  | cs => (false, cs)

/-- A pattern being read: the innermost open group, the groups around it, and how many groups have
a number. -/
structure Reading where
  inner : Group
  outer : List Group
  numbered : Nat

namespace Reading

/-- A pattern of which nothing is read. -/
def start : Reading := ⟨.start none, [], 0⟩

def push (r : Reading) (piece : Nested) : Reading := { r with inner := r.inner.push piece }

def pushChar (r : Reading) (c : Char) : Reading := r.push ⟨text [c], 0⟩

def pushSet (r : Reading) (s : CharSet) (depth : Nat) : Reading := r.push ⟨ofSet s, depth⟩

/-- Open a group, after its parenthesis: one without a mark gets the next number, and only groups
without a name or flags may be marked. -/
def openGroup (r : Reading) : List Char → Option (Reading × List Char)
  | '?' :: ':' :: cs => some (⟨.start none, r.inner :: r.outer, r.numbered⟩, cs)
  | '?' :: _ => none
  | cs =>
    let number := r.numbered + 1
    some (⟨.start (some number), r.inner :: r.outer, number⟩, cs)

def closeGroup? (r : Reading) : Option Reading :=
  match r.outer with
  | [] => none
  | o :: os => some ⟨o.push r.inner.close, os, r.numbered⟩

/-- Put the latest piece under a repetition, which may be marked as lazy. -/
def repeatLast? (r : Reading) (least : Nat) (greatest : Option Nat) (cs : List Char) :
    Option (Reading × List Char) :=
  match r.inner.pieces with
  | [] => none
  | p :: ps =>
    let (isLazy, cs) := readLazy cs
    let piece : Nested := ⟨p.pattern.repeated least greatest isLazy, p.depth + 1⟩
    some ({ r with inner := { r.inner with pieces := piece :: ps } }, cs)

/-- Read the next construct of a pattern, whose first character is `c`. -/
def step? (r : Reading) (c : Char) (cs : List Char) : Option (Reading × List Char) :=
  match c with
  | '(' => r.openGroup cs
  | ')' => do return (← r.closeGroup?, cs)
  | '|' => some ({ r with inner := r.inner.nextBranch }, cs)
  | '[' => do
    let (f, cs) := openClass cs
    let (s, depth, cs) ← readClassFrom f [] cs
    return (r.pushSet s depth, cs)
  | '*' => r.repeatLast? 0 none cs
  | '+' => r.repeatLast? 1 none cs
  | '?' => r.repeatLast? 0 (some 1) cs
  | '\x7b' => do
    let (least, greatest, cs) ← readBounds cs
    r.repeatLast? least greatest cs
  | '\\' => do
    let (e, cs) ← readEscape cs
    match e with
    | .literal c => return (r.pushChar c, cs)
    | .set s => return (r.pushSet s 0, cs)
  | '.' => some (r.pushSet .notNewline 0, cs)
  | '^' => none
  | '$' => none
  | c => some (r.pushChar c, cs)

/-- Read the rest of a pattern; every group has to be closed by its end. -/
def run (r : Reading) : List Char → Option Nested
  | [] => if r.outer.isEmpty then some r.inner.content else none
  | c :: cs =>
    match r.step? c cs with
    | some (r, rest) => if _h : rest.length ≤ cs.length then r.run rest else none
    | none => none
termination_by cs => cs.length

end Reading

/-- The pattern a text describes, if the text is well formed. -/
def read? (source : String) : Option Pattern :=
  match Reading.start.run source.toList with
  | some n => if n.depth ≤ nestLimit then some n.pattern else none
  | none => none

end Glr.Pattern

namespace Glr

/-- What a reader of patterns says of a text: whether it is a pattern, and then the lower bound of
the length of a match, if one is known. -/
class PatternSyntax where
  shortest? : String → Option (Option Nat)

/-- The patterns that can be read here. -/
instance PatternSyntax.readable : PatternSyntax where
  shortest? source := (Pattern.read? source).map (·.shortest?)

end Glr
