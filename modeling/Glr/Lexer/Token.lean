import Glr.Language.Basic
import Glr.Text.Point
import Glr.Text.Span

/-!
# Tokens

`nextToken` reads one token at an offset.  The candidates are the terminals of the lex mode and the
extras: the longest match wins, then a literal over a pattern, then the lower symbol.  A keyword
that is only the beginning of a longer word gives way to the word.

Lexing never fails.  Where no candidate matches, every literal and named token is tried, and where
none of them does either, characters are skipped up to the next place where one would, as an error
token.  A token records how far behind its end the text was looked at to decide on it.
-/

namespace Glr

/-- One token of a text. -/
structure Token where
  symbol : Symbol
  span : Span
  extent : Point
  /-- Bytes looked at behind the end. -/
  lookahead : Nat
  lexMode : Nat
  isError : Bool
  deriving Repr, DecidableEq, Inhabited

/-- Whether a token is the end of the text. -/
def Token.isEnd (t : Token) : Bool := t.symbol == Symbol.endOfText

namespace TokenMatch

/-- Whether a match is preferred over another: it is longer, or as long and a literal against a
pattern, or otherwise of the lower symbol. -/
def beats (a b : TokenMatch) : Bool :=
  a.stop > b.stop ||
    (a.stop == b.stop &&
      ((a.literal && !b.literal) || (a.literal == b.literal && a.symbol < b.symbol)))

/-- The preferred match of a list; the earliest of equals. -/
def best? (found : List TokenMatch) : Option TokenMatch :=
  found.foldl (fun best m =>
    match best with
    | none => some m
    | some b => if m.beats b then some m else some b) none

end TokenMatch

namespace Language

/-- Whether a symbol may be lexed where a set is valid. -/
def accepts (l : Language) (valid : SymbolSet) (s : Symbol) : Bool :=
  valid.contains s || l.isExtra s

/-- The end of the longest match of the word token. -/
def wordEnd? (l : Language) (found : List TokenMatch) : Option Nat :=
  match l.wordToken with
  | none => none
  | some word => ((found.filter fun m => m.symbol == word).getLast?).map (·.stop)

/-- The candidate among matches.  A keyword with a longer word gives the word or, where the word is
not valid, nothing at all. -/
def choose (l : Language) (valid : SymbolSet) (found : List TokenMatch) : Option TokenMatch :=
  match TokenMatch.best? (found.filter fun m => l.accepts valid m.symbol) with
  | none => none
  | some best =>
    match l.wordToken, l.wordEnd? found with
    | some word, some stop =>
      if l.isKeyword best.symbol && stop > best.stop then
        if l.accepts valid word then some ⟨stop, word, false⟩ else none
      else some best
    | _, _ => some best

/-- The candidate among the matches of a scan from an offset; a match of no bytes is none. -/
def candidate? (l : Language) (offset : Nat) (valid : SymbolSet) (scan : Scan) :
    Option TokenMatch :=
  l.choose valid (scan.found.filter fun m => m.stop != offset)

/-- The first place behind an offset where a recovery terminal matches, or the end of the text, and
how far the text was looked at. -/
def skipUnknown (l : Language) (text : Text) (offset : Nat) (examined : Nat) : Nat × Nat :=
  if h : offset < text.size then
    let stop := min (offset + Utf8.width text[offset]) text.size
    -- The character itself is skipped in any case; what is tried is behind it.
    if stop = text.size then (stop, examined)
    else
      let next := l.matcher.scan text stop
      let examined := max examined next.examined
      if (l.candidate? stop l.recoveryTerminals next).isSome then (stop, examined)
      else skipUnknown l text stop examined
  else (offset, examined)
termination_by text.size - offset
decreasing_by
  have := Utf8.width_pos text[offset]
  omega

/-- The report of the scanner at an offset, if there is one and a symbol of its is wanted. -/
def consultScanner (l : Language) (text : Text) (offset : Nat) (valid : SymbolSet) :
    Option ScanReport :=
  match l.scanner with
  | none => none
  | some scanner =>
    if l.tables.externalTokens.any valid.contains then
      some (scanner.scan (Cursor.atOffset text (min offset text.size)) valid)
    else none

/-- A token from `start` to `stop`, decided by what is before `examined`. -/
def tokenOf (text : Text) (symbol : Symbol) (start stop examined mode : Nat) (isError : Bool) :
    Token where
  symbol
  span := ⟨start, stop⟩
  extent := Point.extentOf (text.extract start stop)
  lookahead := examined - stop
  lexMode := mode
  isError

/-- The token that patterns find at an offset, where the text was looked at up to `examined`
before. -/
def patternToken (l : Language) (text : Text) (offset examined : Nat) (valid : SymbolSet)
    (mode : Nat) : Token :=
  if text.size ≤ offset then
    tokenOf text Symbol.endOfText offset offset examined mode false
  else
    let scan := l.matcher.scan text offset
    let examined := max examined scan.examined
    match l.candidate? offset valid scan with
    | some m => tokenOf text m.symbol offset m.stop examined mode false
    | none =>
      -- One scan serves both: what is valid only sorts out matches.
      match l.candidate? offset l.recoveryTerminals scan with
      | some m => tokenOf text m.symbol offset m.stop examined LexMode.recovery false
      | none =>
        let (stop, examined) := l.skipUnknown text offset examined
        tokenOf text Symbol.error offset stop examined LexMode.recovery true

/-- One token at an offset with an explicit set of valid terminals; the mode is only recorded. -/
def nextTokenIn (l : Language) (text : Text) (offset : Nat) (valid : SymbolSet) (mode : Nat) :
    Token :=
  let offset := min offset text.size
  match l.consultScanner text offset valid with
  | none => l.patternToken text offset (offset + 1) valid mode
  | some report =>
    let examined := max (offset + 1) report.cursor.examined
    match report.symbol with
    | some s =>
      -- Any other answer is as good as none, but what was looked at counts.
      if l.isExternal s && valid.contains s then
        let stop := min (max report.cursor.tokenEnd offset) text.size
        tokenOf text s offset stop examined mode false
      else l.patternToken text offset examined valid mode
    | none => l.patternToken text offset examined valid mode

/-- One token at an offset under a lex mode. -/
def nextToken (l : Language) (text : Text) (offset mode : Nat) : Token :=
  l.nextTokenIn text offset (l.validSet mode) mode

end Language

end Glr
