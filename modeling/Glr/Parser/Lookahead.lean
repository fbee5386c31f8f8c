import Glr.Parser.Run

/-!
# The token ahead

A token is taken from the old tree if one stack is alive, a leaf of the old tree starts at the
position, and it was lexed in the mode that the stack calls for now.  Otherwise it is lexed: in the
mode of the stacks if they share one, and else with the terminals of all their modes.
-/

namespace Glr

namespace Run

/-- The leaf of the old tree at the position, if it can be the token ahead. -/
def reusableLeaf (l : Language) (r : Run) : Option Green × Run :=
  match r.live with
  | [s] =>
    let (found, cursor) := r.reuse.seek r.position.offset
    let usable (leaf : Green) : Bool :=
      !leaf.isDamaged && !leaf.hasError && !leaf.isFragile && leaf.lexMode == l.lexMode s.state
    -- The cursor has moved also where the leaf is of no use.
    ((found.bind Green.firstLeaf?).filter usable, { r with reuse := cursor })
  | _ => (none, r)

/-- The lex mode that all stacks share. -/
def sharedLexMode? (l : Language) : List Stack → Option Nat
  | [] => none
  | s :: ss =>
    let mode := l.lexMode s.state
    if ss.all fun t => l.lexMode t.state == mode then some mode else none

/-- The terminals of the lex modes of all stacks. -/
def unionSet (l : Language) (live : List Stack) : SymbolSet :=
  live.foldl (fun set s => set.union (l.validSet (l.lexMode s.state)))
    (SymbolSet.empty l.symbolCount)

/-- The terminals to lex with, and the mode to record. -/
def lexSet (l : Language) (live : List Stack) : SymbolSet × Nat :=
  match sharedLexMode? l live with
  | some mode => (l.validSet mode, mode)
  | none => (unionSet l live, LexMode.union)

/-- The token ahead as a leaf of the old tree. -/
def reusedLookahead (start : Position) (leaf : Green) : Checked Lookahead := do
  let span ← Span.ofLengthChecked start.offset leaf.length
  let stop ← start.advance leaf
  return {
    token :=
      { symbol := leaf.symbol
        span
        extent := leaf.extent
        lookahead := leaf.lookahead
        lexMode := leaf.lexMode
        isError := false }
    reused := some leaf
    start
    stop }

/-- The token ahead as the lexer reads it. -/
def lexedLookahead (start : Position) (token : Token) : Checked Lookahead := do
  let point ← start.point.advanceChecked token.extent
  return { token, reused := none, start, stop := ⟨token.span.stop, point⟩ }

/-- Whether a scanner, asked for a token at an offset, asks for the parse to stop. -/
def scannerStops (l : Language) (text : Text) (offset : Nat) (valid : SymbolSet) : Bool :=
  (l.consultScanner text offset valid).any (·.cancels)

/-- Read the token ahead. -/
def lookahead (task : ParseTask) (r : Run) : Lookahead × Run :=
  let (reusable, r) := r.reusableLeaf task.language
  match reusable with
  | some leaf =>
    let la := reusedLookahead r.position leaf
    (la.value, r.noting la)
  | none =>
    let offset := r.position.offset
    let (valid, mode) := lexSet task.language r.live
    let la := lexedLookahead r.position
      (task.language.nextTokenIn task.text offset valid mode)
    -- A token does not tell what the scanner asked for besides.
    let stops := scannerStops task.language task.text offset valid
    (la.value, { r.noting la with stopRequested := r.stopRequested || stops })

end Run

end Glr
