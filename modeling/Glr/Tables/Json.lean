import Glr.Text.Utf8

/-!
# JSON values

A small model of JSON, for the payload of a language blob.  The order of an object's fields and
their repetitions are kept.  A number is of interest only if it is an integer; any other is a
`decimal`, as is a zero with a minus sign, and is not kept.  A string may hold bytes that are not
UTF-8 or halves of a surrogate pair: it then has no value, which matters only to whoever needs it.

`render` writes a value without blanks and escapes no more than it must.  `read?` reads one value
from a whole text.
-/

namespace Glr

/-- A JSON value. -/
inductive Json where
  | null
  | bool (b : Bool)
  | int (n : Int)
  | decimal
  | str (s : Option String)
  | arr (items : List Json)
  | obj (fields : List (Option String × Json))
  deriving Inhabited

namespace Json

/-- A string value. -/
def ofString (s : String) : Json := str (some s)

/-- A natural number. -/
def ofNat (n : Nat) : Json := int n

/-- An object from its fields in order. -/
def record (fields : List (String × Json)) : Json :=
  obj (fields.map fun (key, value) => (some key, value))

/-! ## Writing -/

/-- The digit of a value below sixteen, in lower case. -/
def hexDigit (n : Nat) : Char := Nat.digitChar n

/-- One character inside a string: quotes, backslashes and controls are escaped. -/
def renderChar (c : Char) : String :=
  if c = '\x22' then "\\\""
  else if c = '\\' then "\\\\"
  else if c = '\x08' then "\\b"
  else if c = '\t' then "\\t"
  else if c = '\n' then "\\n"
  else if c = '\x0C' then "\\f"
  else if c = '\r' then "\\r"
  else if c.toNat < 0x20 then
    (("\\u00".push (hexDigit (c.toNat / 16))).push (hexDigit (c.toNat % 16)))
  else c.toString

/-- A string in quotes. -/
def renderString (s : String) : String :=
  (s.foldl (fun out c => out ++ renderChar c) "\"").push '\x22'

mutual

/-- Write a value behind what is already written. -/
def renderTo (out : String) : Json → String
  | null => out ++ "null"
  | bool true => out ++ "true"
  | bool false => out ++ "false"
  | int n => out ++ toString n
  | decimal => out ++ "0.5"
  | str s => out ++ renderString (s.getD "")
  | arr items => (renderItems (out.push '[') true items).push ']'
  | obj fields => (renderFields (out.push '\x7b') true fields).push '\x7d'

/-- Write the items of an array, with a comma before each but the first. -/
def renderItems (out : String) (first : Bool) : List Json → String
  | [] => out
  | v :: vs => renderItems (renderTo (if first then out else out.push ',') v) false vs

/-- Write the fields of an object. -/
def renderFields (out : String) (first : Bool) : List (Option String × Json) → String
  | [] => out
  | (key, v) :: fs =>
    let out := if first then out else out.push ','
    renderFields (renderTo ((out ++ renderString (key.getD "")).push ':') v) false fs

end

/-- The value in writing. -/
def render (v : Json) : String := renderTo "" v

/-! ## Reading -/

/-- Blanks between tokens. -/
def isBlank (b : UInt8) : Bool := b = 0x20 || b = 0x0A || b = 0x09 || b = 0x0D

/-- Skip blanks. -/
def skipBlanks : List UInt8 → List UInt8
  | b :: bs => if isBlank b then skipBlanks bs else b :: bs
  | [] => []

/-- Whether a byte is a decimal digit. -/
def isDigit (b : UInt8) : Bool := 0x30 ≤ b && b ≤ 0x39

/-- The digits at the front, at least one, and what follows. -/
def readDigits (bs : List UInt8) : Option (List UInt8 × List UInt8) :=
  let (digits, rest) := bs.span isDigit
  if digits.isEmpty then none else some (digits, rest)

/-- The value of decimal digits. -/
def digitsValue (digits : List UInt8) : Nat :=
  digits.foldl (fun n d => n * 10 + (d.toNat - 0x30)) 0

/-- A fraction, if there is one: whether there was, and what follows. -/
def readFraction : List UInt8 → Option (Bool × List UInt8)
  | 0x2E :: bs => do
    let (_, bs) ← readDigits bs
    return (true, bs)
  | bs => some (false, bs)

/-- An exponent, if there is one: whether there was, and what follows. -/
def readExponent : List UInt8 → Option (Bool × List UInt8)
  | b :: bs =>
    if b = 0x65 || b = 0x45 then
      let bs := match bs with
        | c :: cs => if c = 0x2B || c = 0x2D then cs else c :: cs
        | [] => []
      (readDigits bs).map fun (_, bs) => (true, bs)
    else some (false, b :: bs)
  | [] => some (false, [])

/-- A number without its sign: no digit may follow a leading zero. -/
def readNumber (negative : Bool) (bs : List UInt8) : Option (Json × List UInt8) := do
  let (digits, bs) ← readDigits bs
  if digits.head? = some 0x30 && digits.length > 1 then none
  else
    let (fraction, bs) ← readFraction bs
    let (exponent, bs) ← readExponent bs
    let value := digitsValue digits
    if fraction || exponent || (negative && value = 0) then return (.decimal, bs)
    else return (.int (if negative then -value else value), bs)

/-- The value of a hexadecimal digit. -/
def hexValue? (b : UInt8) : Option Nat :=
  if 0x30 ≤ b && b ≤ 0x39 then some (b.toNat - 0x30)
  else if 0x41 ≤ b && b ≤ 0x46 then some (b.toNat - 0x41 + 10)
  else if 0x61 ≤ b && b ≤ 0x66 then some (b.toNat - 0x61 + 10)
  else none

/-- The UTF-16 unit written with four hexadecimal digits. -/
def unitValue? (a b c d : UInt8) : Option Nat := do
  let a ← hexValue? a
  let b ← hexValue? b
  let c ← hexValue? c
  let d ← hexValue? d
  return ((a * 16 + b) * 16 + c) * 16 + d

/-- A piece of a string: bytes as they stand, or a UTF-16 unit written by its number. -/
inductive StringPiece where
  | byte (b : UInt8)
  | unit (n : Nat)

/-- The byte that a letter after a backslash stands for. -/
def escapedByte? (e : UInt8) : Option UInt8 :=
  if e = 0x22 || e = 0x5C || e = 0x2F then some e
  else if e = 0x62 then some 0x08
  else if e = 0x66 then some 0x0C
  else if e = 0x6E then some 0x0A
  else if e = 0x72 then some 0x0D
  else if e = 0x74 then some 0x09
  else none

/-- The pieces of a string up to its closing quote, latest first, and what follows. -/
def readPieces (ps : List StringPiece) : List UInt8 → Option (List StringPiece × List UInt8)
  | [] => none
  | b :: bs =>
    if b = 0x22 then some (ps, bs)
    else if b = 0x5C then
      match bs with
      | 0x75 :: a :: b :: c :: d :: bs =>
        match unitValue? a b c d with
        | some u => readPieces (.unit u :: ps) bs
        | none => none
      | e :: bs =>
        match escapedByte? e with
        | some b => readPieces (.byte b :: ps) bs
        | none => none
      | [] => none
    else if b < 0x20 then none
    else readPieces (.byte b :: ps) bs

/-- The bytes of the character with a code. -/
def encodeCode (code : Nat) : List UInt8 := (Char.ofNat code).toString.toUTF8.toList

/-- The bytes of pieces in order; a surrogate must be the first or second half of a pair. -/
def piecesToBytes : List StringPiece → Option (List UInt8)
  | [] => some []
  | .byte b :: ps => (piecesToBytes ps).map (b :: ·)
  | .unit u :: .unit v :: ps =>
    if 0xD800 ≤ u && u < 0xDC00 then
      if 0xDC00 ≤ v && v < 0xE000 then
        (piecesToBytes ps).map (encodeCode (0x10000 + (u - 0xD800) * 0x400 + (v - 0xDC00)) ++ ·)
      else none
    else if 0xDC00 ≤ u && u < 0xE000 then none
    else (piecesToBytes (.unit v :: ps)).map (encodeCode u ++ ·)
  | .unit u :: ps =>
    if 0xD800 ≤ u && u < 0xE000 then none
    else (piecesToBytes ps).map (encodeCode u ++ ·)

/-- The string that pieces spell, if they spell one. -/
def piecesToString? (ps : List StringPiece) : Option String := do
  let bytes ← piecesToBytes ps
  Utf8.decode? bytes.toArray

/-- A string after its opening quote. -/
def readString (bs : List UInt8) : Option (Option String × List UInt8) :=
  match readPieces [] bs with
  | some (ps, bs) => some (piecesToString? ps.reverse, bs)
  | none => none

/-- What follows a given word. -/
def readWord : List UInt8 → List UInt8 → Option (List UInt8)
  | [], bs => some bs
  | w :: ws, b :: bs => if w = b then readWord ws bs else none
  | _ :: _, [] => none

mutual

/-- One value and what follows it.  The number bounds the values still to be read. -/
def readValue : Nat → List UInt8 → Option (Json × List UInt8)
  | 0, _ => none
  | n + 1, bs =>
    match skipBlanks bs with
    | [] => none
    | b :: bs =>
      -- A letter announces `null`, `true` or `false`.
      if b = 0x6E then (readWord [0x75, 0x6C, 0x6C] bs).map fun bs => (.null, bs)
      else if b = 0x74 then (readWord [0x72, 0x75, 0x65] bs).map fun bs => (.bool true, bs)
      else if b = 0x66 then (readWord [0x61, 0x6C, 0x73, 0x65] bs).map fun bs => (.bool false, bs)
      else if b = 0x2D then readNumber true bs
      else if isDigit b then readNumber false (b :: bs)
      else if b = 0x22 then (readString bs).map fun (s, bs) => (.str s, bs)
      else if b = 0x5B then
        match skipBlanks bs with
        | 0x5D :: bs => some (.arr [], bs)
        | bs => readItems n [] bs
      else if b = 0x7B then
        match skipBlanks bs with
        | 0x7D :: bs => some (.obj [], bs)
        | bs => readFields n [] bs
      else none

/-- The items of an array that has one more, latest first. -/
def readItems : Nat → List Json → List UInt8 → Option (Json × List UInt8)
  | 0, _, _ => none
  | n + 1, items, bs =>
    match readValue n bs with
    | none => none
    | some (v, bs) =>
      match skipBlanks bs with
      | 0x2C :: bs => readItems n (v :: items) bs
      | 0x5D :: bs => some (.arr (v :: items).reverse, bs)
      | _ => none

/-- The fields of an object that has one more, latest first. -/
def readFields : Nat → List (Option String × Json) → List UInt8 → Option (Json × List UInt8)
  | 0, _, _ => none
  | n + 1, fields, bs =>
    match skipBlanks bs with
    | 0x22 :: bs =>
      match readString bs with
      | none => none
      | some (key, bs) =>
        match skipBlanks bs with
        | 0x3A :: bs =>
          match readValue n bs with
          | none => none
          | some (v, bs) =>
            match skipBlanks bs with
            | 0x2C :: bs => readFields n ((key, v) :: fields) bs
            | 0x7D :: bs => some (.obj ((key, v) :: fields).reverse, bs)
            | _ => none
        | _ => none
    | _ => none

end

/-- The value that a whole text holds. -/
def read? (text : Text) : Option Json :=
  -- A value takes a byte at least, and so does what parts it from the next.
  match readValue (2 * text.size + 2) text.toList with
  | some (v, rest) => if (skipBlanks rest).isEmpty then some v else none
  | none => none

end Json

end Glr
