/-!
# Grammars as they are written

A grammar is a list of named rules, each with an expression for its body, the first of them the
start rule.  A rule whose body is a text, a pattern or a token expression names a token; any other
names a nonterminal.
-/

namespace Glr

/-- An expression in a rule. -/
inductive Expr where
  | seq (items : List Expr)
  | choice (items : List Expr)
  /-- Any number of times. -/
  | many (item : Expr)
  /-- Once or more. -/
  | some (item : Expr)
  | optional (item : Expr)
  | blank
  /-- What a rule stands for. -/
  | ref (name : String)
  /-- A fixed text. -/
  | literal (text : String)
  /-- A text that matches a pattern. -/
  | pattern (source : String)
  | prec (level : Int) (item : Expr)
  | precLeft (level : Int) (item : Expr)
  | precRight (level : Int) (item : Expr)
  /-- A precedence that counts when readings compete. -/
  | precDynamic (level : Int) (item : Expr)
  /-- One token, whatever it is made of. -/
  | token (item : Expr)
  deriving Repr, Inhabited

structure Rule where
  name : String
  body : Expr
  deriving Repr, Inhabited

structure Grammar where
  name : String
  /-- Of two rules of one name the first counts. -/
  rules : List Rule
  /-- Tokens that may stand anywhere. -/
  extras : List Expr
  /-- The token that keywords are taken from. -/
  word : Option String
  /-- Sets of rules that are expected to conflict. -/
  conflicts : List (List String)
  /-- Tokens that a scanner finds. -/
  externals : List String
  /-- Whether a conflict that nothing resolves or expects is an error. -/
  strict : Bool
  deriving Repr, Inhabited

end Glr
