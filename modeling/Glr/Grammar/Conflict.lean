import Glr.Grammar.Error
import Glr.Grammar.Flat

/-!
# Conflicts

A cell gathers what a state can do on one terminal: shift it, reduce productions, accept.  Of the
reductions those of the highest precedence stay.  Against a shift, a reduction of higher precedence
wins and one of lower precedence loses; on one level the associativity of the reduction decides, and
without one both stay.  What stays beyond one action is a conflict, and the parser follows every
action of it.
-/

namespace Glr

/-- What a state can do on one terminal. -/
structure Cell where
  shift : Option StateId
  /-- The productions of the items that the shift moves. -/
  shifters : List ProductionId
  /-- The productions read to their end, in ascending order. -/
  reduces : List ProductionId
  accepts : Bool
  deriving Repr, DecidableEq, Inhabited

namespace Cell

def levelOf (g : FlatGrammar) (p : ProductionId) : Int :=
  match g.productions[p]? with
  | some production => production.precedence
  | none => 0

def assocOf (g : FlatGrammar) (p : ProductionId) : Assoc :=
  match g.productions[p]? with
  | some production => production.assoc
  | none => .neither

/-- The rule that the left side of a production was written in. -/
def ruleOf (g : FlatGrammar) (p : ProductionId) : Symbol :=
  match g.productions[p]? with
  | some production => g.originOf production.lhs
  | none => Symbol.endOfText

/-- The precedence of a shift: the highest of its items, and at least the level zero that no
precedence stands for. -/
def shiftLevel (g : FlatGrammar) (cell : Cell) : Int :=
  (cell.shifters.map (levelOf g)).foldl max 0

/-- Whether a reduction has the highest precedence of those given. -/
def isHighest (g : FlatGrammar) (reduces : List ProductionId) (p : ProductionId) : Bool :=
  reduces.all fun q => levelOf g q ≤ levelOf g p

/-- Whether a reduction drives out a shift of a given level. -/
def beatsShift (g : FlatGrammar) (level : Int) (p : ProductionId) : Bool :=
  level < levelOf g p || (levelOf g p == level && assocOf g p == .left)

/-- Whether a reduction gives way to a shift of a given level. -/
def yieldsToShift (g : FlatGrammar) (level : Int) (p : ProductionId) : Bool :=
  levelOf g p < level || (levelOf g p == level && assocOf g p == .right)

/-- The cell with only what precedence and associativity leave. -/
def settle (g : FlatGrammar) (cell : Cell) : Cell :=
  let best := cell.reduces.filter (isHighest g cell.reduces)
  match cell.shift with
  | none => { cell with reduces := best }
  | some _ =>
    let level := cell.shiftLevel g
    -- Reductions to the right give way also to a shift that one to the left drives out.
    { cell with
      shift := if best.any (beatsShift g level) then none else cell.shift
      reduces := best.filter fun p => !yieldsToShift g level p }

/-- The actions of a cell: accept, shift, then the reductions in order. -/
def actions (cell : Cell) : List Action :=
  (if cell.accepts then [.accept] else [])
    ++ (cell.shift.map Action.shift).toList
    ++ cell.reduces.map Action.reduce

/-- The rules that have a part in what a cell does, in ascending order. -/
def rules (g : FlatGrammar) (cell : Cell) : List Symbol :=
  let involved :=
    cell.reduces.map (ruleOf g)
      ++ if cell.shift.isSome then cell.shifters.map (ruleOf g) else []
  (involved.mergeSort (· ≤ ·)).eraseDups

/-- Whether the grammar expects a conflict of these rules. -/
def isDeclared (g : FlatGrammar) (rules : List Symbol) : Bool :=
  g.conflicts.any fun set => rules.all set.contains

/-- The actions of a state on a terminal.  A strict grammar has no conflict that it does not
declare. -/
def resolve (g : FlatGrammar) (strict : Bool) (state : StateId) (s : Symbol) (cell : Cell) :
    Except GrammarError (List Action) :=
  let cell := cell.settle g
  let actions := cell.actions
  let rules := cell.rules g
  if strict && actions.length > 1 && !isDeclared g rules then
    .error (.unresolvedConflict state (g.nameOf s) actions (rules.map g.nameOf))
  else .ok actions

end Cell

end Glr
