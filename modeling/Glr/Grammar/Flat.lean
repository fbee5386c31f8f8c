import Glr.Tables.Basic

/-!
# Flat grammars

A flat grammar has symbols and productions only: no expressions are left.  Every symbol knows the
rule it was written in, which for a helper made for a repetition is the rule that repeats.
-/

namespace Glr

/-- A production with its right-hand side. -/
structure FlatProduction where
  lhs : Symbol
  rhs : List Symbol
  precedence : Int
  assoc : Assoc
  dynamicPrecedence : Int
  deriving Repr, DecidableEq, Inhabited

/-- A grammar of symbols and productions. -/
structure FlatGrammar where
  name : String
  symbols : Array SymbolInfo
  tokens : List TokenDef
  productions : Array FlatProduction
  start : Symbol
  extras : List Symbol
  word : Option Symbol
  externals : List Symbol
  conflicts : List (List Symbol)
  /-- The rule each symbol was written in. -/
  origin : Array Symbol
  deriving Repr, Inhabited

namespace FlatGrammar

def isTerminal (g : FlatGrammar) (s : Symbol) : Bool :=
  match g.symbols[s]? with
  | some info => info.terminal
  | none => false

def nameOf (g : FlatGrammar) (s : Symbol) : String :=
  match g.symbols[s]? with
  | some info => info.name
  | none => ""

/-- The rule a symbol was written in. -/
def originOf (g : FlatGrammar) (s : Symbol) : Symbol := g.origin.getD s s

end FlatGrammar

end Glr
