import Glr.Tables.Basic
import Glr.Tables.Json

/-!
# Tables as JSON

`Tables.toJson` writes tables as an object with its fields in a fixed order, and `Tables.ofJson?`
reads them back.  Reading is lenient where that is harmless: fields may come in any order, unknown
ones are skipped, some may be missing, and a record may be an array of its fields.  It refuses a
field that comes twice, a number outside its word, and a value of the wrong shape.
-/

namespace Glr

/-! ## Writing -/

namespace SymbolInfo

def toJson (i : SymbolInfo) : Json :=
  .record [("name", .ofString i.name), ("terminal", .bool i.terminal), ("named", .bool i.named),
    ("visible", .bool i.visible), ("extra", .bool i.extra)]

end SymbolInfo

namespace Assoc

def name : Assoc → String
  | left => "Left"
  | right => "Right"
  | neither => "None"

end Assoc

namespace Production

def toJson (p : Production) : Json :=
  .record [("lhs", .ofNat p.lhs), ("len", .ofNat p.length), ("precedence", .int p.precedence),
    ("associativity", .ofString p.assoc.name), ("dynamic_precedence", .int p.dynamicPrecedence)]

end Production

namespace Action

def toJson : Action → Json
  | shift s => .record [("Shift", .ofNat s)]
  | reduce p => .record [("Reduce", .ofNat p)]
  | accept => .ofString "Accept"

end Action

namespace StateRow

def toJson (row : StateRow) : Json :=
  .record [
    ("actions", .arr (row.actions.map fun (s, actions) =>
      .arr [.ofNat s, .arr (actions.map Action.toJson)])),
    ("gotos", .arr (row.gotos.map fun (s, target) => .arr [.ofNat s, .ofNat target])),
    ("lex_mode", .ofNat row.lexMode)]

end StateRow

namespace TokenDef

def toJson (d : TokenDef) : Json :=
  let pattern := match d.pattern with
    | .literal text => Json.record [("Literal", .ofString text)]
    | .regex source => Json.record [("Regex", .ofString source)]
  .record [("symbol", .ofNat d.symbol), ("pattern", pattern)]

end TokenDef

namespace Tables

/-- Tables as a JSON object. -/
def toJson (t : Tables) : Json :=
  .record [
    ("name", .ofString t.name),
    ("symbols", .arr (t.symbols.toList.map SymbolInfo.toJson)),
    ("productions", .arr (t.productions.toList.map Production.toJson)),
    ("states", .arr (t.states.toList.map StateRow.toJson)),
    ("lex_modes", .arr (t.lexModes.toList.map fun valid =>
      .record [("valid", .arr (valid.map Json.ofNat))])),
    ("tokens", .arr (t.tokens.map TokenDef.toJson)),
    ("extras", .arr (t.extras.map Json.ofNat)),
    ("word_token", (t.wordToken.map Json.ofNat).getD .null),
    ("external_tokens", .arr (t.externalTokens.map Json.ofNat)),
    ("start_symbol", .ofNat t.startSymbol)]

end Tables

/-! ## Reading -/

namespace Json

/-- The values of a record's fields in the order of their names, `none` where one is missing. -/
def fields? (names : List String) : Json → Option (List (Option Json))
  | obj fields =>
    if fields.any fun (key, _) => key.isNone then none
    else names.mapM fun name =>
      match fields.filter fun (key, _) => key == some name with
      | [] => some none
      | [(_, v)] => some (some v)
      | _ => none
  | arr items =>
    if items.length ≤ names.length then
      some (items.map some ++ List.replicate (names.length - items.length) none)
    else none
  | _ => none

/-- A number that fits sixteen bits. -/
def toId? : Json → Option Nat
  | int n => if 0 ≤ n && n ≤ 65535 then some n.toNat else none
  | _ => none

/-- A number that fits thirty-two bits with a sign. -/
def toLevel? : Json → Option Int
  | int n => if -2147483648 ≤ n && n ≤ 2147483647 then some n else none
  | _ => none

def toBool? : Json → Option Bool
  | bool b => some b
  | _ => none

def toString? : Json → Option String
  | str s => s
  | _ => none

/-- An array, each item read. -/
def toList? {α : Type} (read : Json → Option α) : Json → Option (List α)
  | arr items => items.mapM read
  | _ => none

/-- An array of exactly two items. -/
def toPair? {α β : Type} (first : Json → Option α) (second : Json → Option β) :
    Json → Option (α × β)
  | arr [a, b] => do return (← first a, ← second b)
  | _ => none

/-- A value that may be missing, but not of the wrong shape. -/
def orDefault {α : Type} (read : Json → Option α) (default : α) : Option Json → Option α
  | some v => read v
  | none => some default

/-- A name with or without a value: a string, or an object of one field. -/
def toTagged? : Json → Option (String × Option Json)
  | str (some s) => some (s, none)
  | obj [(some key, v)] => some (key, some v)
  | _ => none

/-- Whether a name carries no value; an explicit null is none. -/
def noValue : Option Json → Bool
  | none => true
  | some null => true
  | _ => false

end Json

namespace SymbolInfo

def ofJson? (v : Json) : Option SymbolInfo := do
  match ← v.fields? ["name", "terminal", "named", "visible", "extra"] with
  | [some name, some terminal, some named, some visible, extra] =>
    return {
      name := ← name.toString?
      terminal := ← terminal.toBool?
      named := ← named.toBool?
      visible := ← visible.toBool?
      extra := ← Json.orDefault Json.toBool? false extra }
  | _ => none

end SymbolInfo

namespace Assoc

def ofJson? (v : Json) : Option Assoc := do
  let (name, value) ← v.toTagged?
  if !Json.noValue value then none
  else if name = "Left" then return left
  else if name = "Right" then return right
  else if name = "None" then return neither
  else none

end Assoc

namespace Production

def ofJson? (v : Json) : Option Production := do
  match ← v.fields? ["lhs", "len", "precedence", "associativity", "dynamic_precedence"] with
  | [some lhs, some length, precedence, assoc, dynamicPrecedence] =>
    return {
      lhs := ← lhs.toId?
      length := ← length.toId?
      precedence := ← Json.orDefault Json.toLevel? 0 precedence
      assoc := ← Json.orDefault Assoc.ofJson? .neither assoc
      dynamicPrecedence := ← Json.orDefault Json.toLevel? 0 dynamicPrecedence }
  | _ => none

end Production

namespace Action

def ofJson? (v : Json) : Option Action := do
  match ← v.toTagged? with
  | ("Shift", some s) => return shift (← s.toId?)
  | ("Reduce", some p) => return reduce (← p.toId?)
  | ("Accept", value) => if Json.noValue value then return accept else none
  | _ => none

end Action

namespace StateRow

def ofJson? (v : Json) : Option StateRow := do
  match ← v.fields? ["actions", "gotos", "lex_mode"] with
  | [some actions, some gotos, some lexMode] =>
    return {
      actions := ← actions.toList? (Json.toPair? Json.toId? (Json.toList? Action.ofJson?))
      gotos := ← gotos.toList? (Json.toPair? Json.toId? Json.toId?)
      lexMode := ← lexMode.toId? }
  | _ => none

end StateRow

namespace TokenDef

def patternOfJson? (v : Json) : Option TokenPattern := do
  match ← v.toTagged? with
  | ("Literal", some text) => return .literal (← text.toString?)
  | ("Regex", some source) => return .regex (← source.toString?)
  | _ => none

def ofJson? (v : Json) : Option TokenDef := do
  match ← v.fields? ["symbol", "pattern"] with
  | [some symbol, some pattern] =>
    return { symbol := ← symbol.toId?, pattern := ← patternOfJson? pattern }
  | _ => none

end TokenDef

namespace Tables

/-- The terminals of a lex mode. -/
def lexModeOfJson? (v : Json) : Option (List Symbol) := do
  match ← v.fields? ["valid"] with
  | [some valid] => valid.toList? Json.toId?
  | _ => none

/-- A symbol or null. -/
def wordOfJson? : Json → Option (Option Symbol)
  | .null => some none
  | v => v.toId?.map some

/-- The tables that a JSON value describes. -/
def ofJson? (v : Json) : Option Tables := do
  match ← v.fields? ["name", "symbols", "productions", "states", "lex_modes", "tokens", "extras",
      "word_token", "external_tokens", "start_symbol"] with
  | [some name, some symbols, some productions, some states, some lexModes, some tokens, extras,
      wordToken, externalTokens, some startSymbol] =>
    return {
      name := ← name.toString?
      symbols := (← symbols.toList? SymbolInfo.ofJson?).toArray
      productions := (← productions.toList? Production.ofJson?).toArray
      states := (← states.toList? StateRow.ofJson?).toArray
      lexModes := (← lexModes.toList? lexModeOfJson?).toArray
      tokens := ← tokens.toList? TokenDef.ofJson?
      extras := ← Json.orDefault (Json.toList? Json.toId?) [] extras
      wordToken := ← Json.orDefault wordOfJson? none wordToken
      externalTokens := ← Json.orDefault (Json.toList? Json.toId?) [] externalTokens
      startSymbol := ← startSymbol.toId? }
  | _ => none

/-- The payload of a blob: tables as compact JSON. -/
def payload (t : Tables) : Text := Text.ofString t.toJson.render

/-- The tables in a payload. -/
def ofPayload? (bytes : Text) : Option Tables := (Json.read? bytes).bind ofJson?

end Tables

end Glr
