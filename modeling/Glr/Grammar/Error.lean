import Glr.Tables.Basic

/-!
# Grammars that cannot be compiled

The reasons to refuse a grammar, their wording, and the codes under which they are reported.
-/

namespace Glr

/-- Why a token expression or its place is not acceptable. -/
inductive PatternFault where
  /-- The pattern itself is malformed. -/
  | malformed
  | refersToRule
  | externalIsRule
  | startIsToken
  | extraIsRule
  | wordIsRule
  deriving Repr, DecidableEq

/-- The fault in words; a malformed pattern has none beyond its name. -/
def PatternFault.reason? : PatternFault → Option String
  | malformed => none
  | refersToRule => some "tokens cannot refer to other rules"
  | externalIsRule => some "external tokens cannot be nonterminal rules"
  | startIsToken => some "the start rule cannot be a token"
  | extraIsRule => some "extras must be tokens"
  | wordIsRule => some "the word token must be a token rule"

/-- What there is too much of. -/
inductive Excess where
  | symbols
  | alternatives
  | productionLength
  | productions
  | states
  deriving Repr, DecidableEq

def Excess.message : Excess → String
  | symbols => "symbol count"
  | alternatives => "alternatives in one rule"
  | productionLength => "production length"
  | productions => "production count"
  | states => "parse state count"

/-- A grammar that cannot be compiled. -/
inductive GrammarError where
  | emptyGrammar
  | undefinedRule (name : String)
  | emptyToken (name : String)
  | invalidPattern (name : String) (fault : PatternFault)
  | unresolvedConflict (state : StateId) (symbol : String) (actions : List Action)
      (rules : List String)
  | tooLarge (excess : Excess)
  deriving Repr, DecidableEq

namespace GrammarError

def message : GrammarError → String
  | emptyGrammar => "grammar has no rules"
  | undefinedRule name => "rule `" ++ name ++ "` is referenced but never defined"
  | emptyToken name => "token `" ++ name ++ "` can match the empty string"
  | invalidPattern name fault =>
    "invalid pattern in `" ++ name ++ "`" ++
      match fault.reason? with
      | some reason => ": " ++ reason
      | none => ""
  | unresolvedConflict state symbol actions rules =>
    "unresolved conflict in state " ++ toString state ++ " on `" ++ symbol ++ "`: ["
      ++ ", ".intercalate (actions.map Action.render) ++ "] in " ++ ", ".intercalate rules
  | tooLarge excess => "grammar exceeds the table id space: " ++ excess.message

/-- The code under which the error is reported. -/
def code : GrammarError → String
  | emptyGrammar => "kelp::grammar::empty"
  | undefinedRule _ => "kelp::grammar::undefined_rule"
  | emptyToken _ => "kelp::grammar::empty_token"
  | invalidPattern _ _ => "kelp::grammar::invalid_pattern"
  | unresolvedConflict _ _ _ _ => "kelp::grammar::conflict"
  | tooLarge _ => "kelp::grammar::too_large"

/-- Advice on what to do about it. -/
def help? : GrammarError → Option String
  | unresolvedConflict _ _ _ _ => some "add precedence, or list the rules in a conflict set"
  | _ => none

end GrammarError

end Glr
