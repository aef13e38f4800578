import Quasidefinite.Json.Value

/-!
# Writing JSON

`JsonValue.text` writes a value without blanks. Quotes, backslashes and control characters are
escaped; every other character stands for itself.
-/

namespace Quasidefinite

namespace JsonValue

/-- Four hexadecimal digits. -/
def unitText (n : Nat) : String :=
  String.ofList ([4096, 256, 16, 1].map fun place => Nat.digitChar (n / place % 16))

/-- A character inside a string. -/
def charText (c : Char) : String :=
  if c = '"' then "\\\""
  else if c = '\\' then "\\\\"
  else if c.toNat < 32 then "\\u" ++ unitText c.toNat
  else c.toString

/-- A string; what is no text is written as one half of a pair of surrogates. -/
def stringText : Option String → String
  | some s => "\"" ++ String.join (s.toList.map charText) ++ "\""
  | none => "\"\\ud800\""

mutual

/-- The text of a value. -/
def text : JsonValue → String
  | .null => "null"
  | .bool b => if b then "true" else "false"
  | .number n => n.text
  | .string s => stringText s
  | .array items => "[" ++ String.intercalate "," (itemTexts items) ++ "]"
  | .object members => "\x7b" ++ String.intercalate "," (memberTexts members) ++ "\x7d"

/-- The texts of the items of an array. -/
def itemTexts : List JsonValue → List String
  | [] => []
  | item :: items => text item :: itemTexts items

/-- The texts of the members of an object. -/
def memberTexts : List (Option String × JsonValue) → List String
  | [] => []
  | (key, value) :: members => (stringText key ++ ":" ++ text value) :: memberTexts members

end

end JsonValue

end Quasidefinite
