import Glr.Text.Quoted
import Glr.Text.Span

/-!
# Warnings

What a parse found wrong and what it did about it.
-/

namespace Glr

/-- How serious a warning is. -/
inductive Severity where
  | error
  | warning
  | info
  deriving Repr, DecidableEq

def Severity.render : Severity → String
  | error => "Error"
  | warning => "Warning"
  | info => "Info"

/-- A limit that a parse met. -/
inductive Limit where
  /-- Too many stacks were alive. -/
  | parallel (allowed : Nat)
  /-- A fork stayed unresolved for too long. -/
  | ambiguity (allowed : Nat)
  /-- A token called for too many reductions. -/
  | reductions (allowed : Nat)
  /-- The parse took too many steps. -/
  | steps (allowed : Nat)
  deriving Repr, DecidableEq

namespace Limit

def message : Limit → String
  | parallel n => "more than " ++ toString n ++ " parallel stacks"
  | ambiguity n => "ambiguity unresolved after " ++ toString n ++ " tokens"
  | reductions n => "more than " ++ toString n ++ " reductions for one token"
  | steps n => "gave up after " ++ toString n ++ " steps"

end Limit

/-- What a warning is about. -/
inductive Problem where
  /-- No token matched these bytes. -/
  | unrecognized (text : String)
  /-- A missing token was inserted before another. -/
  | insertedMissing (missing before : String)
  /-- Input before a token was wrapped as an error. -/
  | wrapped (before : String)
  /-- A token was skipped. -/
  | skipped (token : String)
  /-- Too many tokens were skipped in a row, and the rest of the text is one error. -/
  | gaveUp (count : Nat)
  /-- Nothing completes the text. -/
  | incomplete
  | limit (l : Limit)
  | cancelled
  deriving Repr, DecidableEq

namespace Problem

def kind : Problem → String
  | unrecognized _ => "LexFailure"
  | insertedMissing _ _ => "Recovered"
  | wrapped _ => "Recovered"
  | skipped _ => "Recovered"
  | gaveUp _ => "RecoveryOverflow"
  | incomplete => "RecoveryOverflow"
  | limit _ => "InternalLimitExceeded"
  | cancelled => "Cancelled"

def severity : Problem → Severity
  | limit _ => .warning
  | cancelled => .info
  | _ => .error

def message : Problem → String
  | unrecognized text => "unrecognized input " ++ Text.quoted text
  | insertedMissing missing before =>
    "inserted missing `" ++ missing ++ "` before `" ++ before ++ "`"
  | wrapped before => "unexpected input before `" ++ before ++ "`"
  | skipped token => "skipped unexpected `" ++ token ++ "`"
  | gaveUp count => "gave up recovering after " ++ toString count ++ " skipped tokens"
  | incomplete => "no valid completion of the input"
  | limit l => l.message
  | cancelled => "parse cancelled"

end Problem

/-- A problem and where it is. -/
structure Warning where
  problem : Problem
  span : Span
  deriving Repr, DecidableEq

namespace Warning

def severity (w : Warning) : Severity := w.problem.severity

def render (w : Warning) : String :=
  w.problem.kind ++ " at " ++ w.span.render ++ ": " ++ w.problem.message

end Warning

end Glr
