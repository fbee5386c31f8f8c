import Glr.Regex.Basic

/-!
# Patterns in normal form

A pattern is what a written expression says, before it becomes a `Regex` to match with: groups keep
their numbers, repetitions their bounds and whether they are lazy.  It is kept in a normal form by
the functions that build it.  A set of one character is a text.  A sequence holds no sequence and
no blank, and no two texts side by side.  A choice holds no choice; a choice between characters, or
between sets, is one set, and what all branches start with stands in front of the choice.

`shortest?` bounds the length of a match from below by what the normal form says.  A set that holds
nothing has no shortest match, and neither has anything made with it, even what could do without
it.
-/

namespace Glr

/-- A pattern. -/
inductive Pattern where
  /-- The empty text. -/
  | blank
  /-- Some characters as such. -/
  | text (chars : List Char)
  /-- One character of a set. -/
  | oneOf (set : CharSet)
  /-- From `least` texts up to `greatest`, or without end. -/
  | counted (body : Pattern) (least : Nat) (greatest : Option Nat) (isLazy : Bool)
  /-- A group with its number. -/
  | group (number : Nat) (body : Pattern)
  | seq (parts : List Pattern)
  | alt (branches : List Pattern)
  deriving Repr, Inhabited

namespace Pattern

mutual

/-- Whether two patterns are written alike, down to the numbers of their groups. -/
def isSame : Pattern → Pattern → Bool
  | blank, blank => true
  | text a, text b => a == b
  | oneOf s, oneOf t => s == t
  | counted p least greatest isLazy, counted q least' greatest' isLazy' =>
    least == least' && greatest == greatest' && isLazy == isLazy' && p.isSame q
  | group m p, group n q => m == n && p.isSame q
  | seq ps, seq qs => allSame ps qs
  | alt ps, alt qs => allSame ps qs
  | _, _ => false

/-- Whether two lists of patterns are written alike one by one. -/
def allSame : List Pattern → List Pattern → Bool
  | [], [] => true
  | p :: ps, q :: qs => p.isSame q && allSame ps qs
  | _, _ => false

end

mutual

/-- Whether the empty text is the only match, as far as the normal form tells. -/
def isBlank : Pattern → Bool
  | blank => true
  | text chars => chars.isEmpty
  | oneOf _ => false
  | counted body _ greatest _ => greatest.isSome && body.isBlank
  | group _ body => body.isBlank
  | seq parts => allBlank parts
  | alt branches => allBlank branches

/-- Whether the empty text is the only match of each pattern. -/
def allBlank : List Pattern → Bool
  | [] => true
  | p :: ps => p.isBlank && allBlank ps

end

/-- One character of a set. -/
def ofSet (s : CharSet) : Pattern :=
  match s.only? with
  | some c => text [c]
  | none => oneOf s

/-- From `least` texts up to `greatest`, or without end; one empty text is as good as many. -/
def repeated (p : Pattern) (least : Nat) (greatest : Option Nat) (isLazy : Bool) : Pattern :=
  let (least, greatest) :=
    if p.isBlank then (min least 1, some (min (greatest.getD 1) 1)) else (least, greatest)
  if greatest = some 0 then blank
  else if least = 1 && greatest = some 1 then p
  else counted p least greatest isLazy

/-- The parts of a sequence; any other pattern is its own only part. -/
def parts : Pattern → List Pattern
  | blank => []
  | seq ps => ps
  | p => [p]

/-- Put a part in front of others; two texts become one. -/
def joinPart : Pattern → List Pattern → List Pattern
  | text a, text b :: rest => text (a ++ b) :: rest
  | p, rest => p :: rest

/-- One pattern after another. -/
def concat (ps : List Pattern) : Pattern :=
  match (ps.flatMap parts).foldr joinPart [] with
  | [] => blank
  | [p] => p
  | ps => seq ps

/-- The branches of a choice; any other pattern is its own only branch. -/
def branches : Pattern → List Pattern
  | alt ps => ps
  | p => [p]

/-- The character of a text of one. -/
def letter? : Pattern → Option CharSet
  | text [c] => some (.single c)
  | _ => none

/-- The set of a pattern that is one. -/
def set? : Pattern → Option CharSet
  | oneOf s => some s
  | _ => none

/-- The parts of a pattern that is a sequence. -/
def sequence? : Pattern → Option (List Pattern)
  | seq ps => some ps
  | _ => none

/-- A choice between branches: characters make a set, and so do sets. -/
def branching : List Pattern → Pattern
  | [] => oneOf .none
  | [p] => p
  | ps =>
    match (ps.mapM letter?).or (ps.mapM set?) with
    | some sets => ofSet (.unionOf sets)
    | none => alt ps

/-- What two sequences both start with. -/
def sharedParts : List Pattern → List Pattern → List Pattern
  | p :: ps, q :: qs => if p.isSame q then p :: sharedParts ps qs else []
  | _, _ => []

/-- A choice between patterns.  If all are sequences, what they all start with comes first. -/
def choice (ps : List Pattern) : Pattern :=
  let ps := ps.flatMap branches
  match ps.mapM sequence? with
  | some (first :: second :: others) =>
    let shared := (second :: others).foldl sharedParts first
    let rests := (first :: second :: others).map fun parts => concat (parts.drop shared.length)
    if shared.isEmpty then branching ps
    else concat (shared ++ [branching (rests.flatMap branches)])
  | _ => branching ps

mutual

/-- A lower bound of the number of characters of a match, if one is known. -/
def shortest? : Pattern → Option Nat
  | blank => some 0
  | text chars => some chars.length
  | oneOf s => if s.isVoid then none else some 1
  | counted body least _ _ => body.shortest?.map (· * least)
  | group _ body => body.shortest?
  | seq parts => totalShortest? parts
  | alt [] => none
  | alt (p :: ps) => leastShortest? p.shortest? ps

/-- The bound for a sequence. -/
def totalShortest? : List Pattern → Option Nat
  | [] => some 0
  | p :: ps => do return (← p.shortest?) + (← totalShortest? ps)

/-- The bound for a choice between branches one of which has the given bound. -/
def leastShortest? (least : Option Nat) : List Pattern → Option Nat
  | [] => least
  | p :: ps => leastShortest? (do return min (← least) (← p.shortest?)) ps

end

mutual

/-- The expression that matches the texts of a pattern. -/
def toRegex : Pattern → Regex
  | blank => .blank
  | text chars => .concat (chars.map fun c => .chars (.single c))
  | oneOf s => .chars s
  | counted body least greatest _ => .repeated body.toRegex least greatest
  | group _ body => body.toRegex
  | seq parts => .concat (toRegexes parts)
  | alt branches => .choice (toRegexes branches)

/-- The expressions of several patterns. -/
def toRegexes : List Pattern → List Regex
  | [] => []
  | p :: ps => p.toRegex :: toRegexes ps

end

end Pattern

end Glr
