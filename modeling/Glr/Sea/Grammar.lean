import Glr.Grammar.Expr

/-!
# The grammar of Sea

Sea is a small systems language.  A source file is a list of top-level items; `_expression` and
`_statement` are hidden, so that what they hold appears directly under the node around them.
Operators of one level may disagree on their associativity, and an expression may stand as a
statement, so some conflicts are left to the parser; they are declared.
-/

namespace Glr

namespace Sea

/-- A reference to the rule of expressions. -/
def expression : Expr := .ref "_expression"

/-- An item any number of times with commas between. -/
def commaSeparated (item : Expr) : List Expr := [item, .many (.seq [.literal ",", item])]

/-- Expressions with commas between, possibly none. -/
def arguments : Expr := .optional (.seq (commaSeparated expression))

/-- A name with an optional type bound to a value, behind a keyword. -/
def binding (keyword : String) : Expr :=
  .seq [
    .literal keyword, .ref "identifier",
    .optional (.seq [.literal ":", .ref "type"]),
    .literal "=", expression]

/-- An infix operator that groups to the left. -/
def infixLeft (level : Int) (operator : String) : Expr :=
  .precLeft level (.seq [expression, .literal operator, expression])

/-- An infix operator that groups to the right. -/
def infixRight (level : Int) (operator : String) : Expr :=
  .precRight level (.seq [expression, .literal operator, expression])

/-- The precedence of prefix and postfix operators. -/
def unaryLevel : Int := 100000

/-- The start rule and comments. -/
def fileRules : List Rule := [
  ⟨"source_file", .many (.ref "_top_level_statement")⟩,
  ⟨"comment", .token (.choice [
    .seq [.literal "//", .pattern "[^\\n]*"],
    .pattern "/\\*([^*]|\\*+[^*/])*\\*+/"])⟩]

def topRules : List Rule := [
  ⟨"_top_level_statement", .choice [
    .ref "top_use", .ref "top_fun", .ref "top_rec", .ref "top_def", .ref "top_tag",
    .ref "top_tag_rec", .ref "top_pragma", .ref "raw", .ref "hashtag"]⟩,
  ⟨"top_use", .seq [
    .literal "use",
    .many (.ref "identifier"),
    .many (.seq [.literal "/", .ref "identifier"]),
    .optional (.seq [.literal "[", .many (.ref "identifier"), .literal "]"])]⟩,
  ⟨"top_fun", .seq [
    .literal "fun", .ref "identifier", .ref "definition_list",
    .optional (.seq [.literal ":", .ref "type"]),
    .ref "block"]⟩,
  ⟨"top_rec", .seq [.literal "rec", .ref "identifier", .ref "definition_list"]⟩,
  ⟨"top_def", .seq [.literal "def", .ref "identifier", .literal "=", .ref "type"]⟩,
  ⟨"top_tag", .seq [
    .literal "tag", .ref "identifier", .literal "(",
    .many (.seq [.ref "identifier", .optional (.literal ",")]),
    .literal ")"]⟩,
  ⟨"top_tag_rec", .seq [
    .literal "tag", .literal "rec", .ref "identifier", .literal "(",
    .many (.seq [.ref "identifier", .optional (.ref "definition_list")]),
    .literal ")"]⟩,
  ⟨"top_pragma", .seq [
    .literal "pragma", .ref "identifier", .literal "(", arguments, .literal ")"]⟩]

def statementRules : List Rule := [
  ⟨"_statement", .choice [
    .ref "statement_ret", .ref "statement_if", .ref "statement_switch", .ref "statement_for",
    expression, .ref "raw"]⟩,
  ⟨"statement_ret", .seq [.literal "ret", expression]⟩,
  ⟨"statement_if", .seq [
    .literal "if", expression, .ref "block",
    .optional (.seq [.literal "else", .choice [.ref "statement_if", .ref "block"]])]⟩,
  ⟨"statement_switch", .seq [
    .literal "switch", expression, .literal "\x7b",
    .many (.seq [.optional (.literal "fall"), .literal "case", expression, .ref "block"]),
    .literal "\x7d"]⟩,
  ⟨"statement_for", .seq [
    .literal "for",
    .choice [
      .seq [expression, .literal ";", expression, .literal ";", expression],
      expression,
      .seq [.ref "identifier", .literal "in", expression, .literal "to", expression]],
    .ref "block"]⟩]

def expressionRules : List Rule := [
  ⟨"_expression", .choice [
    .ref "expr_group", .ref "expr_number", .ref "expr_string", .ref "expr_c_string",
    .ref "expr_char", .ref "expr_bool", .ref "expr_identifier", .ref "expr_new",
    .ref "expr_invoke", .ref "expr_list", .ref "expr_var", .ref "expr_let",
    .ref "unary_expression", .ref "binary_expression"]⟩,
  ⟨"expr_group", .seq [.literal "(", expression, .literal ")"]⟩,
  ⟨"expr_number", .ref "number"⟩,
  ⟨"expr_string", .ref "string"⟩,
  ⟨"expr_c_string", .ref "c_string"⟩,
  ⟨"expr_char", .ref "char"⟩,
  ⟨"expr_bool", .choice [.literal "true", .literal "false"]⟩,
  ⟨"expr_identifier", .ref "identifier"⟩,
  ⟨"expr_new", .seq [
    .literal "new", .ref "identifier", .literal "(", arguments, .literal ")"]⟩,
  ⟨"expr_list", .seq [.literal "[", arguments, .literal "]"]⟩,
  ⟨"expr_invoke", .seq [.ref "identifier", .literal "(", arguments, .literal ")"]⟩,
  ⟨"expr_var", binding "var"⟩,
  ⟨"expr_let", binding "let"⟩,
  ⟨"unary_expression", .prec unaryLevel (.choice [
    .seq [.literal "-", expression],
    .seq [.literal "not", expression],
    .seq [.literal "ref", expression],
    .seq [expression, .literal "^"]])⟩,
  ⟨"binary_expression", .choice [
    infixRight 0 "=",
    infixLeft 1 ">",
    infixLeft 1 ">=",
    infixLeft 1 "<",
    infixLeft 2 "<=",
    infixLeft 3 "==",
    infixLeft 3 "!=",
    infixLeft 4 "and",
    infixLeft 4 "or",
    infixRight 5 "+",
    infixRight 5 "-",
    infixLeft 6 "*",
    infixLeft 6 "/",
    infixLeft 6 "%",
    infixRight 7 ".",
    infixRight 7 "as",
    .seq [expression, .literal "[", expression, .literal "]"]]⟩]

/-- Blocks, raw text, types and the named tokens.  Raw text may hold one level of brackets. -/
def commonRules : List Rule := [
  ⟨"block", .choice [
    .seq [.literal "\x7b", .many (.ref "_statement"), .literal "\x7d"],
    .seq [.literal "->", .ref "_statement"]]⟩,
  ⟨"hashtag", .seq [
    .literal "#",
    .choice [
      .ref "identifier",
      .seq [
        .literal "(", .many (.seq (commaSeparated (.ref "identifier"))), .literal ")"]]]⟩,
  ⟨"raw", .seq [
    .literal "raw", .literal "[",
    .some (.choice [.pattern "\\[[^\\[\\]\\n]*\\]", .pattern "[^\\[\\]]+"]),
    .literal "]"]⟩,
  ⟨"type", .choice [
    .seq [
      .many (.literal "^"),
      .ref "identifier",
      .many (.seq [.literal "[", .optional (.ref "number"), .literal "]"])],
    .seq [
      .literal "fun", .literal "(", .many (.ref "type"), .literal ")",
      .optional (.seq [.literal ":", .ref "type"])]]⟩,
  ⟨"identifier", .pattern "[a-zA-Z_$][a-zA-Z_$0-9]*"⟩,
  ⟨"number", .pattern "[0-9_]+(\\.[0-9_]+)?"⟩,
  ⟨"string", .pattern "\"(?:[^\"\\\\\\n]|\\\\.)*\""⟩,
  ⟨"c_string", .pattern "c\"(?:[^\"\\\\\\n]|\\\\.)*\""⟩,
  ⟨"char", .pattern "`[^`\\n]*`"⟩,
  ⟨"definition_list", .seq [
    .literal "(",
    .optional (.seq [
      .ref "identifier", .literal ":", .ref "type",
      .many (.seq [.literal ",", .ref "identifier", .literal ":", .ref "type"])]),
    .literal ")"]⟩]

def grammar : Grammar where
  name := "sea"
  rules := fileRules ++ topRules ++ statementRules ++ expressionRules ++ commonRules
  extras := [.ref "comment", .pattern "\\s+"]
  word := some "identifier"
  conflicts := [
    ["unary_expression"],
    ["expr_identifier", "expr_invoke"],
    ["binary_expression", "expr_var"],
    ["binary_expression", "expr_let"],
    ["statement_if"],
    ["_statement", "binary_expression"],
    ["statement_ret", "binary_expression"]]
  externals := []
  strict := false

end Sea

end Glr
