import Quasidefinite.Decimal.Numeral

/-!
# JSON values

The values that a JSON text can hold. Numbers keep their decimal form, since the type they are
read as is the reader's choice. A string may escape one half of a pair of surrogates and is then
no text; it is kept as `none`, since only a reader who wants the text need refuse it.
-/

namespace Quasidefinite

/-- A JSON value. -/
inductive JsonValue
  | null
  | bool (b : Bool)
  | number (n : Numeral)
  | string (s : Option String)
  | array (items : List JsonValue)
  | object (members : List (Option String × JsonValue))

end Quasidefinite
