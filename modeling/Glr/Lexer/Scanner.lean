import Glr.Lexer.Cursor
import Glr.Lexer.SymbolSet

/-!
# Hand-written scanners

Some tokens are beyond a pattern: nested comments, indentation, quotations with a chosen delimiter.
A language may carry a scanner for them, which is asked before the patterns are.  A scanner is a
function of a cursor and of the symbols wanted.

`Script` is a small language for writing scanners down: a list of attempts, each a list of probes
that all have to succeed.
-/

namespace Glr

/-- One probe a scanner made, where it left the cursor, and what it saw. -/
structure ScanEvent where
  probe : String
  succeeded : Bool
  start : Nat
  position : Nat
  seenByte : Option UInt8
  seenChar : Option Char
  deriving Repr

/-- What a scanner answers: the symbol it found, the cursor it leaves, whether it asks for the parse
to stop, and its log. -/
structure ScanReport where
  symbol : Option Symbol
  cursor : Cursor
  cancels : Bool
  log : List ScanEvent
  deriving Repr

/-- A hand-written scanner. -/
structure Scanner where
  scan : Cursor → SymbolSet → ScanReport

/-- One step of an attempt. -/
inductive Probe where
  /-- The next byte is the given one; move over it. -/
  | byte (expected : Option UInt8)
  /-- The next character is the given one; move over it. -/
  | char (expected : Option Char)
  /-- Move up to the next place where the given byte is. -/
  | skipTo (stop : Option UInt8)
  /-- Move over a bracketed text with the brackets inside it in balance. -/
  | nested (opening closing : Option UInt8)
  | advance
  | markEnd
  /-- Note the next byte. -/
  | peek
  /-- Note the next character. -/
  | peekChar
  | atEnd
  | notAtEnd
  | fail
  deriving Repr, DecidableEq

namespace Probe

/-- The name under which a probe is logged. -/
def name : Probe → String
  | byte _ => "byte"
  | char _ => "char"
  | skipTo _ => "until"
  | nested _ _ => "nested"
  | advance => "advance"
  | markEnd => "mark"
  | peek => "peek"
  | peekChar => "peek_char"
  | atEnd => "at_eof"
  | notAtEnd => "not_eof"
  | fail => "fail"

/-- Move to the first byte that is the given one, or to the end. -/
def runSkip (stop : Option UInt8) (c : Cursor) : Cursor :=
  let seen := c.touch c.position
  match _h : c.text[c.position]? with
  | none => seen
  | some next => if some next = stop then seen else runSkip stop seen.advance
termination_by c.remaining
decreasing_by exact Cursor.remaining_advance_lt _h

/-- Move over brackets, of which `depth` are open: whether the last of them closed. -/
def runNested (opening closing : Option UInt8) (depth : Nat) (c : Cursor) : Bool × Cursor :=
  let seen := c.touch c.position
  match _h : c.text[c.position]? with
  | none => (false, seen)
  | some next =>
    if some next = opening then runNested opening closing (depth + 1) seen.advance
    else if depth = 0 then (false, seen)
    else if some next = closing then
      if depth = 1 then (true, seen.advance)
      else runNested opening closing (depth - 1) seen.advance
    else runNested opening closing depth seen.advance
termination_by c.remaining
decreasing_by all_goals exact Cursor.remaining_advance_lt _h

/-- Run a probe: whether it succeeds, the cursor after it, and what it noted. -/
def run (c : Cursor) : Probe → Bool × Cursor × Option UInt8 × Option Char
  | byte expected =>
    let (next, c) := c.lookahead
    if next.isSome && next = expected then (true, c.advance, none, none)
    else (false, c, none, none)
  | char expected =>
    let (next, c) := c.lookaheadChar
    if next.isSome && next = expected then (true, c.advance, none, none)
    else (false, c, none, none)
  | skipTo stop => (true, runSkip stop c, none, none)
  | nested opening closing =>
    let (closed, c) := runNested opening closing 0 c
    (closed, c, none, none)
  | advance => (true, c.advance, none, none)
  | markEnd => (true, c.markEnd, none, none)
  | peek =>
    let (next, c) := c.lookahead
    (true, c, next, none)
  | peekChar =>
    let (next, c) := c.lookaheadChar
    (true, c, none, next)
  | atEnd =>
    let (ended, c) := c.isAtEnd
    (ended, c, none, none)
  | notAtEnd =>
    let (ended, c) := c.isAtEnd
    (!ended, c, none, none)
  | fail => (false, c, none, none)

/-- Run probes up to the first that fails: whether all succeeded, the cursor, and the log, latest
first. -/
def runAll (c : Cursor) (log : List ScanEvent) : List Probe → Bool × Cursor × List ScanEvent
  | [] => (true, c, log)
  | p :: ps =>
    let (succeeded, c, seenByte, seenChar) := p.run c
    let log := ⟨p.name, succeeded, c.start, c.position, seenByte, seenChar⟩ :: log
    if succeeded then runAll c log ps else (false, c, log)

end Probe

/-- One attempt of a script: the probes that find a token.  It is skipped where the token is not
wanted, unless it is unconditional.  A token without a symbol ends the script. -/
structure Attempt where
  symbol : Option Symbol
  unconditional : Bool
  probes : List Probe
  deriving Repr

/-- A scanner written down. -/
structure Script where
  /-- Ask for the parse to stop from this offset on. -/
  cancelFrom : Option Nat
  attempts : List Attempt
  deriving Repr

namespace Script

/-- Make attempts in order until one succeeds.  A failed attempt leaves the cursor where it
stopped. -/
def runAttempts (wanted : SymbolSet) (c : Cursor) (log : List ScanEvent) :
    List Attempt → Option Symbol × Cursor × List ScanEvent
  | [] => (none, c, log)
  | a :: rest =>
    match a.symbol with
    | none => (none, c, log)
    | some s =>
      if a.unconditional || wanted.contains s then
        let (succeeded, c, log) := Probe.runAll c log a.probes
        if succeeded then (some s, c, log) else runAttempts wanted c log rest
      else runAttempts wanted c log rest

/-- The scanner that a script describes. -/
def toScanner (script : Script) : Scanner where
  scan c wanted :=
    let (symbol, after, log) := runAttempts wanted c [] script.attempts
    { symbol
      cursor := after
      cancels := script.cancelFrom.any (· ≤ c.start)
      log := log.reverse }

end Script

end Glr
