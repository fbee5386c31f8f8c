import Glr.Grammar.Flat
import Glr.Grammar.Lexical

/-!
# Flattening a grammar

`Grammar.lower` turns rules into flat productions.  The body of a nonterminal rule expands into
alternatives: a choice lists those of its branches, a sequence combines those of its items, and a
repetition stands for a hidden helper that is either one item or the helper and an item more.
Alternatives with the same symbols count once.

Symbols are numbered in this order: the two reserved ones, the tokens named by rules, the external
tokens, the anonymous tokens as they first occur, the nonterminal rules, and the helpers as the
expansion meets them.
-/

namespace Glr

/-- A rule may expand into this many alternatives. -/
def maxAlternatives : Nat := 4096

/-- One way to expand an expression: symbols, and the precedences that its parts give it. -/
structure Alternative where
  symbols : List Symbol
  precedence : Option Int
  assoc : Option Assoc
  dynamicPrecedence : Option Int
  deriving Repr, DecidableEq, Inhabited

namespace Alternative

def blank : Alternative := ⟨[], none, none, none⟩

def single (s : Symbol) : Alternative := ⟨[s], none, none, none⟩

/-- One alternative after another; the first precedence given counts. -/
def concat (a b : Alternative) : Alternative where
  symbols := a.symbols ++ b.symbols
  precedence := a.precedence <|> b.precedence
  assoc := a.assoc <|> b.assoc
  dynamicPrecedence := a.dynamicPrecedence <|> b.dynamicPrecedence

/-- Every alternative of the first list before every one of the second. -/
def product (as bs : List Alternative) : List Alternative :=
  as.flatMap fun a => bs.map (concat a)

/-- Give a precedence to an alternative that has none. -/
def withPrecedence (level : Int) (a : Alternative) : Alternative :=
  { a with precedence := a.precedence <|> some level }

/-- Give an associativity to an alternative that has none. -/
def withAssoc (assoc : Assoc) (a : Alternative) : Alternative :=
  { a with assoc := a.assoc <|> some assoc }

/-- Give a dynamic precedence to an alternative that has none. -/
def withDynamic (level : Int) (a : Alternative) : Alternative :=
  { a with dynamicPrecedence := a.dynamicPrecedence <|> some level }

def toProduction (lhs : Symbol) (a : Alternative) : FlatProduction where
  lhs
  rhs := a.symbols
  precedence := a.precedence.getD 0
  assoc := a.assoc.getD .neither
  dynamicPrecedence := a.dynamicPrecedence.getD 0

end Alternative

/-- A flat grammar in the making. -/
structure Draft where
  /-- Named symbols, the latest first. -/
  names : List (String × Symbol)
  /-- Anonymous tokens, the latest first. -/
  anonymous : List (TokenPattern × Symbol)
  symbols : Array SymbolInfo
  tokens : Array TokenDef
  origin : Array Symbol
  productions : Array FlatProduction
  deriving Repr, Inhabited

namespace Draft

/-- The reserved symbols. -/
def start : Draft where
  names := []
  anonymous := []
  symbols := #[⟨"end", true, false, false, false⟩, ⟨"ERROR", true, true, true, false⟩]
  tokens := #[]
  origin := #[Symbol.endOfText, Symbol.error]
  productions := #[]

def lookup? (d : Draft) (name : String) : Option Symbol := d.names.lookup name

/-- The symbol of a name that must have one. -/
def resolve (d : Draft) (name : String) : Except GrammarError Symbol :=
  match d.lookup? name with
  | some s => .ok s
  | none => .error (.undefinedRule name)

def isTerminal (d : Draft) (s : Symbol) : Bool :=
  match d.symbols[s]? with
  | some info => info.terminal
  | none => false

/-- Whether a name is that of a token. -/
def isTokenName (d : Draft) (name : String) : Bool := (d.lookup? name).any d.isTerminal

def nameOf (d : Draft) (s : Symbol) : String :=
  match d.symbols[s]? with
  | some info => info.name
  | none => ""

/-- The number of the next symbol, if there is one left. -/
def nextSymbol (d : Draft) : Except GrammarError Symbol :=
  if d.symbols.size < 65535 then .ok d.symbols.size else .error (.tooLarge .symbols)

def addNamed (d : Draft) (name : String) (terminal visible : Bool) :
    Except GrammarError (Symbol × Draft) := do
  let s ← d.nextSymbol
  return (s, { d with
    names := (name, s) :: d.names
    symbols := d.symbols.push ⟨name, terminal, true, visible, false⟩
    origin := d.origin.push s })

def addToken [PatternSyntax] (d : Draft) (name : String) (s : Symbol) (p : TokenPattern) :
    Except GrammarError Draft := do
  p.check name
  return { d with tokens := d.tokens.push ⟨s, p⟩ }

/-- Add the tokens named by rules. -/
def addTokenRules [PatternSyntax] (d : Draft) : List Rule → Except GrammarError Draft
  | [] => .ok d
  | r :: rs =>
    if r.body.isToken then do
      let p ← r.body.toTokenPattern
      let (s, d) ← d.addNamed r.name true true
      let d ← d.addToken r.name s p
      addTokenRules d rs
    else addTokenRules d rs

/-- Add the external tokens that no rule names. -/
def addExternals (rules : List Rule) (d : Draft) : List String → Except GrammarError Draft
  | [] => .ok d
  | name :: names =>
    if d.isTokenName name then addExternals rules d names
    else if rules.any fun r => r.name == name then
      .error (.invalidPattern name .externalIsRule)
    else do
      let (_, d) ← d.addNamed name true true
      addExternals rules d names

/-- Add the anonymous token of an expression, unless it is there. -/
def addAnonymous [PatternSyntax] (d : Draft) (e : Expr) : Except GrammarError Draft := do
  let p ← e.toTokenPattern
  match d.anonymous.lookup p with
  | some _ => return d
  | none =>
    let s ← d.nextSymbol
    let d := { d with
      symbols := d.symbols.push ⟨p.source, true, false, p.isLiteral, false⟩
      origin := d.origin.push s }
    let d ← d.addToken p.source s p
    return { d with anonymous := (p, s) :: d.anonymous }

mutual

/-- Add the anonymous tokens of an expression in order. -/
def collect [PatternSyntax] (d : Draft) : Expr → Except GrammarError Draft
  | .literal text => d.addAnonymous (.literal text)
  | .pattern source => d.addAnonymous (.pattern source)
  | .token item => d.addAnonymous (.token item)
  | .seq items => collectAll d items
  | .choice items => collectAll d items
  | .many item => collect d item
  | .some item => collect d item
  | .optional item => collect d item
  | .prec _ item => collect d item
  | .precLeft _ item => collect d item
  | .precRight _ item => collect d item
  | .precDynamic _ item => collect d item
  | .blank => .ok d
  | .ref _ => .ok d

/-- Add the anonymous tokens of several expressions in order. -/
def collectAll [PatternSyntax] (d : Draft) : List Expr → Except GrammarError Draft
  | [] => .ok d
  | e :: es => do
    let d ← collect d e
    collectAll d es

end

/-- The anonymous token of an expression. -/
def anonymousSymbol (d : Draft) (e : Expr) : Except GrammarError Symbol := do
  let p ← e.toTokenPattern
  match d.anonymous.lookup p with
  | some s => return s
  | none => throw (.undefinedRule p.source)

/-- Add the nonterminals named by rules; a name with a leading underscore is hidden. -/
def addNonterminals (d : Draft) : List Rule → Except GrammarError Draft
  | [] => .ok d
  | r :: rs => do
    let (_, d) ← d.addNamed r.name false (!r.name.startsWith "_")
    addNonterminals d rs

/-- Add the productions of alternatives, skipping one whose symbols were seen before. -/
def addProductions (d : Draft) (lhs : Symbol) (seen : List (List Symbol)) :
    List Alternative → Except GrammarError Draft
  | [] => .ok d
  | a :: as =>
    if seen.contains a.symbols then addProductions d lhs seen as
    else if a.symbols.length > 65535 then .error (.tooLarge .productionLength)
    else
      addProductions { d with productions := d.productions.push (a.toProduction lhs) } lhs
        (a.symbols :: seen) as

/-- Add the helper of a repetition in a rule: its number is one more than the rule has so far. -/
def addHelper (d : Draft) (rule : Symbol) : Except GrammarError (Symbol × Draft) := do
  let name := d.nameOf rule ++ "_repeat" ++ toString (d.origin.count rule)
  let s ← d.nextSymbol
  return (s, { d with
    symbols := d.symbols.push ⟨name, false, false, false, false⟩
    origin := d.origin.push rule })

/-- The productions of a helper over the alternatives of what it repeats. -/
def helperAlternatives (helper : Symbol) (body : List Alternative) : List Alternative :=
  body.map (Alternative.single helper).concat ++ body

/-- Refuse more alternatives than a rule may have. -/
def bounded (as : List Alternative) : Except GrammarError (List Alternative) :=
  if as.length > maxAlternatives then .error (.tooLarge .alternatives) else .ok as

mutual

/-- The alternatives of an expression in a rule. -/
def alternatives (d : Draft) (rule : Symbol) :
    Expr → Except GrammarError (List Alternative × Draft)
  | .blank => .ok ([Alternative.blank], d)
  | .ref name => do
    let s ← d.resolve name
    return ([Alternative.single s], d)
  | .literal text => do
    let s ← d.anonymousSymbol (.literal text)
    return ([Alternative.single s], d)
  | .pattern source => do
    let s ← d.anonymousSymbol (.pattern source)
    return ([Alternative.single s], d)
  | .token item => do
    let s ← d.anonymousSymbol (.token item)
    return ([Alternative.single s], d)
  | .seq items => sequence d rule [Alternative.blank] items
  | .choice items => do
    let (as, d) ← branches d rule items
    return (← bounded as, d)
  | .optional item => do
    let (as, d) ← alternatives d rule item
    return (← bounded (Alternative.blank :: as), d)
  | .many item => do
    -- The helper comes before those of what it repeats.
    let (helper, d) ← d.addHelper rule
    let (body, d) ← alternatives d rule item
    let d ← d.addProductions helper [] (helperAlternatives helper body)
    return ([Alternative.blank, Alternative.single helper], d)
  | .some item => do
    let (helper, d) ← d.addHelper rule
    let (body, d) ← alternatives d rule item
    let d ← d.addProductions helper [] (helperAlternatives helper body)
    return ([Alternative.single helper], d)
  | .prec level item => do
    let (as, d) ← alternatives d rule item
    return (as.map (·.withPrecedence level), d)
  | .precLeft level item => do
    let (as, d) ← alternatives d rule item
    return (as.map fun a => (a.withPrecedence level).withAssoc .left, d)
  | .precRight level item => do
    let (as, d) ← alternatives d rule item
    return (as.map fun a => (a.withPrecedence level).withAssoc .right, d)
  | .precDynamic level item => do
    let (as, d) ← alternatives d rule item
    return (as.map (·.withDynamic level), d)

/-- The alternatives of expressions one after another, behind given ones. -/
def sequence (d : Draft) (rule : Symbol) (before : List Alternative) :
    List Expr → Except GrammarError (List Alternative × Draft)
  | [] => .ok (before, d)
  | e :: es => do
    let (next, d) ← alternatives d rule e
    if before.length * next.length > maxAlternatives then throw (.tooLarge .alternatives)
    sequence d rule (Alternative.product before next) es

/-- The alternatives of any of several expressions. -/
def branches (d : Draft) (rule : Symbol) :
    List Expr → Except GrammarError (List Alternative × Draft)
  | [] => .ok ([], d)
  | e :: es => do
    let (as, d) ← alternatives d rule e
    let (bs, d) ← branches d rule es
    return (as ++ bs, d)

end

def addRules (d : Draft) : List Rule → Except GrammarError Draft
  | [] => .ok d
  | r :: rs => do
    let lhs ← d.resolve r.name
    let (as, d) ← d.alternatives lhs r.body
    let d ← d.addProductions lhs [] as
    addRules d rs

/-- Mark the extras and list them. -/
def addExtras (d : Draft) : List Expr → Except GrammarError (List Symbol × Draft)
  | [] => .ok ([], d)
  | e :: es => do
    let s ← match e with
      | .ref name => d.resolve name
      | e => d.anonymousSymbol e
    if !d.isTerminal s then throw (.invalidPattern (d.nameOf s) .extraIsRule)
    let d := { d with symbols := d.symbols.modify s fun info => { info with extra := true } }
    let (ss, d) ← addExtras d es
    return (s :: ss, d)

end Draft

namespace Grammar

/-- The first rule of each name. -/
def distinctRules (seen : List String) : List Rule → List Rule
  | [] => []
  | r :: rs =>
    if seen.contains r.name then distinctRules seen rs
    else r :: distinctRules (r.name :: seen) rs

def lowerWord (g : Grammar) (d : Draft) : Except GrammarError (Option Symbol) :=
  match g.word with
  | none => .ok none
  | some name => do
    let s ← d.resolve name
    if d.isTerminal s then return some s else throw (.invalidPattern name .wordIsRule)

def lower [PatternSyntax] (g : Grammar) : Except GrammarError FlatGrammar := do
  match g.rules with
  | [] => throw .emptyGrammar
  | first :: _ =>
    let rules := distinctRules [] g.rules
    let d ← Draft.start.addTokenRules rules
    let d ← d.addExternals rules g.externals
    let d ← d.collectAll g.extras
    -- Only tokens have got a symbol so far.
    let nonterminals := rules.filter fun r => !d.isTokenName r.name
    let d ← d.collectAll (nonterminals.map (·.body))
    let d ← d.addNonterminals nonterminals
    let d ← d.addRules nonterminals
    let start ← d.resolve first.name
    if d.isTerminal start then throw (.invalidPattern first.name .startIsToken)
    let (extras, d) ← d.addExtras g.extras
    let word ← g.lowerWord d
    let externals ← g.externals.mapM d.resolve
    let conflicts ← g.conflicts.mapM fun names => names.mapM d.resolve
    if d.productions.size ≥ 65535 then throw (.tooLarge .productions)
    return {
      name := g.name
      symbols := d.symbols
      tokens := d.tokens.toList
      productions := d.productions
      start
      extras
      word
      externals
      conflicts
      origin := d.origin }

end Grammar

end Glr
