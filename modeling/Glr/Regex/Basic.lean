import Glr.Regex.CharSet
import Glr.Text.Utf8

/-!
# Regular expressions over UTF-8

An expression denotes a set of byte strings.  `chars s` denotes the encodings of the characters of
`s`; `tail s l` denotes what is left of such an encoding once its first bytes are read.

A byte that can start a match leads to what may follow it, which `derivatives` lists: the
expressions that together denote the remainders of the matches starting with that byte.  The list
tells where reading can go on, and not what can still be completed: before a set that holds nothing,
it holds an expression that denotes nothing.
-/

namespace Glr

/-- A regular expression. -/
inductive Regex where
  /-- The empty text. -/
  | blank
  /-- One character of a set. -/
  | chars (set : CharSet)
  /-- The rest of one character of a set, of which some bytes are read. -/
  | tail (set : CharSet) (read : Utf8.Lead)
  | seq (first second : Regex)
  | alt (left right : Regex)
  /-- From `least` texts up to `greatest`, or without end. -/
  | repeated (body : Regex) (least : Nat) (greatest : Option Nat)
  deriving Repr, DecidableEq, Inhabited

namespace Regex

/-- Whether the empty text matches. -/
def nullable : Regex → Bool
  | blank => true
  | chars _ => false
  | tail _ _ => false
  | seq a b => a.nullable && b.nullable
  | alt a b => a.nullable || b.nullable
  | repeated a least _ => least = 0 || a.nullable

/-- One text after another; the empty text adds nothing. -/
def andThen : Regex → Regex → Regex
  | blank, b => b
  | a, blank => a
  | a, b => seq a b

/-- Texts one after another. -/
def concat : List Regex → Regex
  | [] => blank
  | [r] => r
  | r :: rs => seq r (concat rs)

/-- A text of any of the expressions. -/
def choice : List Regex → Regex
  | [] => chars .none
  | [r] => r
  | r :: rs => alt r (choice rs)

/-- What is left of a repetition after one of its texts. -/
def lessOne (r : Regex) (least : Nat) (greatest : Option Nat) : Regex :=
  if greatest.any (· ≤ 1) then blank else repeated r (least - 1) (greatest.map (· - 1))

/-- What may follow once a character of `s` is read up to `l`. -/
def afterLead (s : CharSet) (l : Utf8.Lead) : List Regex :=
  if s.meets l.least l.greatest then [if l.owed = 0 then blank else tail s l] else []

/-- The expressions that together denote what follows a byte in the matches starting with it. -/
def derivatives (byte : UInt8) : Regex → List Regex
  | blank => []
  | chars s =>
    match Utf8.Lead.ofByte? byte with
    | some l => afterLead s l
    | none => []
  | tail s l =>
    match l.step? byte with
    | some l => afterLead s l
    | none => []
  | seq a b =>
    let first := (derivatives byte a).map (andThen · b)
    if a.nullable then first ++ derivatives byte b else first
  | alt a b => derivatives byte a ++ derivatives byte b
  | repeated a least greatest =>
    if greatest = some 0 then []
    else (derivatives byte a).map (andThen · (lessOne a least greatest))

/-- Put an expression into a list that lacks it. -/
def insertNew (rs : List Regex) (r : Regex) : List Regex :=
  if rs.contains r then rs else rs ++ [r]

/-- The expressions, each once, that denote what follows a byte in the matches of any of the
given ones. -/
def advance (byte : UInt8) (rs : List Regex) : List Regex :=
  rs.foldl (fun out r => (derivatives byte r).foldl insertNew out) []

end Regex

end Glr
