import Glr.Tables.Blob
import Glr.Regex.Reader

/-!
# Matching tokens

A matcher runs the patterns of all tokens side by side over a text from one offset and reports every
match of every pattern.  It reads byte by byte for as long as reading can go on in some pattern, and
it tells how far it looked: a run that stops has read the byte that stopped it, and, where the bytes
before that byte were a match, one byte more.
-/

namespace Glr

/-- The pattern of a token, ready to run. -/
structure TokenRule where
  symbol : Symbol
  literal : Bool
  regex : Regex
  deriving Repr, Inhabited

/-- A token rule and what is left to match of it. -/
structure LiveRule where
  rule : TokenRule
  states : List Regex

/-- A match that ends at an offset. -/
structure TokenMatch where
  stop : Nat
  symbol : Symbol
  literal : Bool
  deriving Repr, DecidableEq

/-- The matches found, and one past the last place looked at. -/
structure Scan where
  found : List TokenMatch
  examined : Nat
  deriving Repr, DecidableEq

/-- The patterns of a language. -/
structure Matcher where
  rules : List TokenRule
  deriving Repr, Inhabited

namespace TokenPattern

/-- The pattern to match: a fixed text stands for itself. -/
def pattern : TokenPattern → String
  | literal text => Regex.escapePattern text
  | regex source => source

end TokenPattern

namespace LiveRule

/-- Whether what is read so far is a match. -/
def accepts (l : LiveRule) : Bool := l.states.any (·.nullable)

/-- What is left of the rule after a byte, if anything. -/
def advance? (byte : UInt8) (l : LiveRule) : Option LiveRule :=
  match Regex.advance byte l.states with
  | [] => none
  | states => some { l with states }

end LiveRule

namespace Matcher

/-- The matcher of token definitions; `nameOf` names the symbol of one that is malformed. -/
def ofTokens (tokens : List TokenDef) (nameOf : Symbol → String) : Except LoadError Matcher := do
  let rules ← tokens.mapM fun d =>
    match Pattern.read? d.pattern.pattern with
    | some p => Except.ok ⟨d.symbol, d.pattern.isLiteral, p.toRegex⟩
    | none => Except.error (.invalidTokenPattern (nameOf d.symbol))
  return ⟨rules⟩

/-- The matches that end at an offset. -/
def matchesAt (live : List LiveRule) (offset : Nat) : List TokenMatch :=
  (live.filter (·.accepts)).map fun l => ⟨offset, l.rule.symbol, l.rule.literal⟩

/-- Run on from an offset with what is live there, after the matches in `found`, latest first. -/
def scanFrom (text : Text) (offset : Nat) (live : List LiveRule) (found : List TokenMatch) : Scan :=
  let here := matchesAt live offset
  let found := here.reverse ++ found
  if h : offset < text.size then
    match live.filterMap (·.advance? text[offset]) with
    | [] => ⟨found.reverse, if here.isEmpty then offset + 1 else offset + 2⟩
    | live => scanFrom text (offset + 1) live found
  else ⟨found.reverse, text.size + 1⟩
termination_by text.size - offset

/-- The rules before anything is read. -/
def start (m : Matcher) : List LiveRule := m.rules.map fun r => ⟨r, [r.regex]⟩

/-- Every match from an offset, in the order of their ends. -/
def scan (m : Matcher) (text : Text) (offset : Nat) : Scan :=
  if m.rules.isEmpty then ⟨[], offset + 1⟩ else scanFrom text offset m.start []

/-- Whether a rule of the symbol matches a whole text. -/
def matchesWhole (m : Matcher) (text : Text) (s : Symbol) : Bool :=
  (m.scan text 0).found.any fun f => f.symbol == s && f.stop == text.size

end Matcher

end Glr
