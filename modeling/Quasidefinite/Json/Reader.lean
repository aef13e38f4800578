import Quasidefinite.Json.Value

/-!
# Reading JSON

`JsonValue.read?` accepts the texts of the JSON grammar and no others: no comments, no trailing
commas, no leading zeros, no raw control characters in strings, nothing but blanks before or after
the value.
-/

namespace Quasidefinite

namespace JsonValue

/-! ## 1. Blanks and digits -/

/-- Holds of the four characters that may stand between tokens. -/
def isBlank (c : Char) : Bool := c == ' ' || c == '\n' || c == '\r' || c == '\t'

/-- The text after its leading blanks. -/
def skipBlanks (cs : List Char) : List Char := cs.dropWhile isBlank

/-- The value of a decimal digit. -/
def digitValue (c : Char) : Nat := c.toNat - '0'.toNat

/-- The number that a list of decimal digits stands for. -/
def digitsValue (cs : List Char) : Nat := cs.foldl (fun n c => 10 * n + digitValue c) 0

/-- The value of a hexadecimal digit. -/
def hexValue? (c : Char) : Option Nat :=
  if c.isDigit then some (digitValue c)
  else if 'a' ≤ c ∧ c ≤ 'f' then some (c.toNat - 'a'.toNat + 10)
  else if 'A' ≤ c ∧ c ≤ 'F' then some (c.toNat - 'A'.toNat + 10)
  else none

/-! ## 2. Numbers -/

/-- The leading digits of a text, at least one, and what follows them. -/
def readDigits? (cs : List Char) : Option (List Char × List Char) :=
  match cs.span Char.isDigit with
  | ([], _) => none
  | digits => some digits

/-- The digits before the point: a zero alone, or digits that start with another one. -/
def readWhole? : List Char → Option (List Char × List Char)
  | '0' :: rest => some (['0'], rest)
  | cs => readDigits? cs

/-- The digits after a point, if there is one. -/
def readFraction? : List Char → Option (List Char × List Char)
  | '.' :: rest => readDigits? rest
  | cs => some ([], cs)

/-- The power of ten after its letter: an optional sign and digits. -/
def readSignedDigits? (cs : List Char) : Option (Int × List Char) :=
  match cs with
  | '-' :: rest => (readDigits? rest).map fun (digits, rest) => (-(digitsValue digits : Int), rest)
  | '+' :: rest => (readDigits? rest).map fun (digits, rest) => ((digitsValue digits : Int), rest)
  | _ => (readDigits? cs).map fun (digits, rest) => ((digitsValue digits : Int), rest)

/-- The power of ten, if one is written. -/
def readPower? (cs : List Char) : Option (Option Int × List Char) :=
  match cs with
  | 'e' :: rest | 'E' :: rest => (readSignedDigits? rest).map fun (k, rest) => (some k, rest)
  | _ => some (none, cs)

/-- A number and what follows it. -/
def readNumber? (cs : List Char) : Option (Numeral × List Char) := do
  let (negative, cs) := match cs with
    | '-' :: rest => (true, rest)
    | _ => (false, cs)
  let (whole, cs) ← readWhole? cs
  let (fraction, cs) ← readFraction? cs
  let (power, cs) ← readPower? cs
  pure
    ({ negative
       digits := digitsValue (whole ++ fraction)
       exponent := power.getD 0 - fraction.length
       whole := fraction.isEmpty && power.isNone }, cs)

/-! ## 3. Strings -/

/-- The 16 bit unit written by four hexadecimal digits, and what follows them. -/
def readUnit? : List Char → Option (Nat × List Char)
  | a :: b :: c :: d :: rest => do
    let unit := (((← hexValue? a) * 16 + (← hexValue? b)) * 16 + (← hexValue? c)) * 16 +
      (← hexValue? d)
    pure (unit, rest)
  | _ => none

/-- The character that a letter stands for after a backslash. -/
def escaped? : Char → Option Char
  | '"' => some '"'
  | '\\' => some '\\'
  | '/' => some '/'
  | 'b' => some '\x08'
  | 'f' => some '\x0c'
  | 'n' => some '\n'
  | 'r' => some '\r'
  | 't' => some '\t'
  | _ => none

/-- What a string is made of: characters, and 16 bit units written by their number. -/
inductive Piece
  | char (c : Char)
  | unit (n : Nat)

/-- The pieces of a string up to the closing quote, and what follows it. The first argument
    bounds the number of pieces. -/
def readPieces? : (pieces : Nat) → List Char → Option (List Piece × List Char)
  | 0, _ => none
  | pieces + 1, cs =>
    match cs with
    | '"' :: rest => some ([], rest)
    | '\\' :: 'u' :: rest => do
      let (unit, rest) ← readUnit? rest
      let (others, rest) ← readPieces? pieces rest
      pure (.unit unit :: others, rest)
    | '\\' :: c :: rest => do
      let c ← escaped? c
      let (others, rest) ← readPieces? pieces rest
      pure (.char c :: others, rest)
    | c :: rest =>
      if c.toNat < 32 then none
      else do
        let (others, rest) ← readPieces? pieces rest
        pure (.char c :: others, rest)
    | [] => none

/-- The text of a string, unless it holds one half of a pair of surrogates. -/
def join? : List Piece → Option (List Char)
  | [] => some []
  | .char c :: rest => (c :: ·) <$> join? rest
  | .unit high :: .unit low :: rest =>
    if 0xD800 ≤ high ∧ high < 0xDC00 then
      if 0xDC00 ≤ low ∧ low < 0xE000 then
        (Char.ofNat (0x10000 + (high - 0xD800) * 0x400 + (low - 0xDC00)) :: ·) <$> join? rest
      else none
    else if 0xDC00 ≤ high ∧ high < 0xE000 then none
    else (Char.ofNat high :: ·) <$> join? (.unit low :: rest)
  | .unit n :: rest =>
    if 0xD800 ≤ n ∧ n < 0xE000 then none else (Char.ofNat n :: ·) <$> join? rest

/-- A string after its opening quote, and what follows it. -/
def readString? (cs : List Char) : Option (Option String × List Char) :=
  (readPieces? (cs.length + 1) cs).map fun (pieces, rest) =>
    ((join? pieces).map String.ofList, rest)

/-! ## 4. Values -/

/-- What follows a word that the text begins with. -/
def readWord? : (word cs : List Char) → Option (List Char)
  | [], cs => some cs
  | w :: word, c :: cs => if w = c then readWord? word cs else none
  | _ :: _, [] => none

mutual

/-- A value and what follows it. The first argument bounds the depth and number of values. -/
def readValue? : (fuel : Nat) → List Char → Option (JsonValue × List Char)
  | 0, _ => none
  | fuel + 1, cs =>
    match skipBlanks cs with
    | 'n' :: rest => (readWord? ['u', 'l', 'l'] rest).map (.null, ·)
    | 't' :: rest => (readWord? ['r', 'u', 'e'] rest).map (.bool true, ·)
    | 'f' :: rest => (readWord? ['a', 'l', 's', 'e'] rest).map (.bool false, ·)
    | '"' :: rest => (readString? rest).map fun (s, rest) => (.string s, rest)
    | '[' :: rest =>
      match skipBlanks rest with
      | ']' :: rest => some (.array [], rest)
      | _ => (readItems? fuel rest).map fun (items, rest) => (.array items, rest)
    | '\x7b' :: rest =>
      match skipBlanks rest with
      | '\x7d' :: rest => some (.object [], rest)
      | _ => (readMembers? fuel rest).map fun (members, rest) => (.object members, rest)
    | cs => (readNumber? cs).map fun (n, rest) => (.number n, rest)

/-- The items of an array up to the closing bracket, and what follows it. -/
def readItems? : (fuel : Nat) → List Char → Option (List JsonValue × List Char)
  | 0, _ => none
  | fuel + 1, cs => do
    let (item, rest) ← readValue? fuel cs
    match skipBlanks rest with
    | ']' :: rest => pure ([item], rest)
    | ',' :: rest => do
      let (items, rest) ← readItems? fuel rest
      pure (item :: items, rest)
    | _ => none

/-- The members of an object up to the closing brace, and what follows it. -/
def readMembers? : (fuel : Nat) → List Char → Option (List (Option String × JsonValue) × List Char)
  | 0, _ => none
  | fuel + 1, cs => do
    let '"' :: rest := skipBlanks cs | none
    let (key, rest) ← readString? rest
    let ':' :: rest := skipBlanks rest | none
    let (value, rest) ← readValue? fuel rest
    match skipBlanks rest with
    | '\x7d' :: rest => pure ([(key, value)], rest)
    | ',' :: rest => do
      let (members, rest) ← readMembers? fuel rest
      pure ((key, value) :: members, rest)
    | _ => none

end

/-- The value of a JSON text. -/
def read? (text : String) : Option JsonValue := do
  let cs := text.toList
  let (value, rest) ← readValue? (cs.length + 1) cs
  if (skipBlanks rest).isEmpty then some value else none

end JsonValue

end Quasidefinite
