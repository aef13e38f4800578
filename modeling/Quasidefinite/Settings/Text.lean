import Quasidefinite.Settings.Basic
import Quasidefinite.Json.Reader
import Quasidefinite.Json.Printer

/-!
# Settings as JSON text

Settings are written as an object with one member per field. They are read from such an object,
or from an array of the values of the first fields in order; fields that are missing have their
standard values, and members that are no fields are passed over. A field named twice, a value of
the wrong kind, and a number out of the range of its field make a text unreadable.
-/

namespace Quasidefinite

namespace Settings

variable {α : Type}

/-! ## 1. Values of fields -/

/-- Reads the value of a field as a truth value. -/
def readBool? : JsonValue → Option Bool
  | .bool b => some b
  | _ => none

/-- Reads the value of a field as text. -/
def readText? : JsonValue → Option String
  | .string s => s
  | _ => none

/-- Reads the value of a field as the nearest scalar. -/
def readScalar? [Scalar α] [Nearest α] : JsonValue → Option α
  | .number n => n.toScalar?
  | _ => none

/-- Reads the value of a field as a 32 bit number. -/
def readCount? : JsonValue → Option UInt32
  | .number n => n.toUInt32?
  | _ => none

/-- The JSON value of a scalar; what is no number, or infinite, has none and is written as
    null. -/
def scalarJson [BinaryFormat α] (x : α) : JsonValue :=
  match Numeral.ofScalar? x with
  | some n => .number n
  | none => .null

/-! ## 2. Reading -/

/-- A draft with one more field read. -/
def Draft.read? [Scalar α] [Nearest α] (d : Draft α) (v : JsonValue) : Field → Option (Draft α)
  | .direct => (readBool? v).map fun x => { d with direct := some x }
  | .engine => (readText? v).map fun x => { d with engine := some x }
  | .denseScale => (readScalar? v).map fun x => { d with denseScale := some x }
  | .regularize => (readBool? v).map fun x => { d with regularize := some x }
  | .regularizeThreshold => (readScalar? v).map fun x => { d with regularizeThreshold := some x }
  | .regularizeShift => (readScalar? v).map fun x => { d with regularizeShift := some x }
  | .refine => (readBool? v).map fun x => { d with refine := some x }
  | .refineRelTol => (readScalar? v).map fun x => { d with refineRelTol := some x }
  | .refineAbsTol => (readScalar? v).map fun x => { d with refineAbsTol := some x }
  | .refineMaxIter => (readCount? v).map fun x => { d with refineMaxIter := some x }
  | .refineStopRatio => (readScalar? v).map fun x => { d with refineStopRatio := some x }
  | .cgMaxIter => (readCount? v).map fun x => { d with cgMaxIter := some x }
  | .precondition => (readBool? v).map fun x => { d with precondition := some x }
  | .warmStart => (readBool? v).map fun x => { d with warmStart := some x }
  | .checkInputs => (readBool? v).map fun x => { d with checkInputs := some x }

/-- Reads the members of an object, with the fields that have been read before. -/
def readMembers? [Scalar α] [Nearest α] : List Field → Draft α → List (Option String × JsonValue) →
    Option (Draft α)
  | _, d, [] => some d
  | seen, d, (key, v) :: members => do
    let key ← key
    match Field.ofName? key with
    | none => readMembers? seen d members
    | some field =>
      if seen.contains field then none
      else readMembers? (field :: seen) (← d.read? v field) members

/-- Reads the items of an array as the values of the given fields. -/
def readItems? [Scalar α] [Nearest α] : List Field → Draft α → List JsonValue → Option (Draft α)
  | _, d, [] => some d
  | [], _, _ :: _ => none
  | field :: fields, d, v :: items => do readItems? fields (← d.read? v field) items

/-- The settings that a JSON value stands for. -/
def ofJson? [Scalar α] [Nearest α] : JsonValue → Option (Settings α)
  | .object members => (readMembers? [] {} members).map Draft.complete
  | .array items => (readItems? Field.all {} items).map Draft.complete
  | _ => none

/-- The settings that a JSON text stands for. -/
def ofText? [Scalar α] [Nearest α] (text : String) : Option (Settings α) :=
  (JsonValue.read? text).bind ofJson?

/-! ## 3. Writing -/

/-- The JSON value of a field. -/
def fieldJson [BinaryFormat α] (s : Settings α) : Field → JsonValue
  | .direct => .bool s.direct
  | .engine => .string (some s.engine)
  | .denseScale => scalarJson s.denseScale
  | .regularize => .bool s.regularize
  | .regularizeThreshold => scalarJson s.regularizeThreshold
  | .regularizeShift => scalarJson s.regularizeShift
  | .refine => .bool s.refine
  | .refineRelTol => scalarJson s.refineRelTol
  | .refineAbsTol => scalarJson s.refineAbsTol
  | .refineMaxIter => .number (.ofNat s.refineMaxIter.toNat)
  | .refineStopRatio => scalarJson s.refineStopRatio
  | .cgMaxIter => .number (.ofNat s.cgMaxIter.toNat)
  | .precondition => .bool s.precondition
  | .warmStart => .bool s.warmStart
  | .checkInputs => .bool s.checkInputs

/-- The JSON text of settings. -/
def text [BinaryFormat α] (s : Settings α) : String :=
  (JsonValue.object (Field.all.map fun f => (some f.name, s.fieldJson f))).text

/-- What becomes of settings that are written and read back. -/
inductive RoundTrip
  /-- They come back equal. -/
  | equal
  /-- They come back changed. -/
  | differs
  /-- Their text cannot be read. -/
  | unreadable
  deriving DecidableEq, Repr

/-- Writes settings and reads them back. -/
def roundTrip [Scalar α] [Nearest α] [BinaryFormat α] (s : Settings α) : RoundTrip :=
  match ofText? s.text with
  | none => .unreadable
  | some t => if t == s then .equal else .differs

end Settings

end Quasidefinite
