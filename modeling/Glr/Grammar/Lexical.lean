import Glr.Grammar.Error
import Glr.Grammar.Expr
import Glr.Lexer.Matcher

/-!
# Token expressions

The expression of a token denotes a set of texts, so it compiles to a pattern.  A token has to match
something, and never the empty text.
-/

namespace Glr

namespace Expr

mutual

/-- The pattern of a token expression. -/
def toPattern : Expr → Except GrammarError String
  | literal text => .ok (Regex.escapePattern text)
  | pattern source => .ok ("(?:" ++ source ++ ")")
  | blank => .ok ""
  | seq items => do return String.join (← toPatterns items)
  | choice items => do return "(?:" ++ "|".intercalate (← toPatterns items) ++ ")"
  | many item => do return "(?:" ++ (← toPattern item) ++ ")*"
  | some item => do return "(?:" ++ (← toPattern item) ++ ")+"
  | optional item => do return "(?:" ++ (← toPattern item) ++ ")?"
  | token item => toPattern item
  | prec _ item => toPattern item
  | precLeft _ item => toPattern item
  | precRight _ item => toPattern item
  | precDynamic _ item => toPattern item
  | ref name => .error (.invalidPattern name .refersToRule)

def toPatterns : List Expr → Except GrammarError (List String)
  | [] => .ok []
  | e :: es => do
    let p ← toPattern e
    let ps ← toPatterns es
    return p :: ps

end

/-- How a token expression is recognised: a text as such is a literal, anything else a pattern. -/
def toTokenPattern : Expr → Except GrammarError TokenPattern
  | literal text => .ok (.literal text)
  | pattern source => .ok (.regex source)
  | token (literal text) => .ok (.literal text)
  | token item => (toPattern item).map .regex
  | e => (toPattern e).map .regex

/-- Whether an expression is a token by itself. -/
def isToken : Expr → Bool
  | literal _ => true
  | pattern _ => true
  | token _ => true
  | _ => false

end Expr

namespace TokenPattern

/-- Refuse the pattern of a token of a given name if it is malformed or matches the empty text. -/
def check [PatternSyntax] (name : String) (p : TokenPattern) : Except GrammarError Unit :=
  match PatternSyntax.shortest? p.pattern with
  | none => .error (.invalidPattern name .malformed)
  | some least => if least = some 0 then .error (.emptyToken name) else .ok ()

end TokenPattern

end Glr
