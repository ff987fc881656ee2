import OpGraph.Error
import OpGraph.Text.Bracketed
import OpGraph.Text.Numeral

/-!
# Reading source records

A source record is a map from names to attribute values. Formats differ in how they
encode a value: numbers, truth values and lists may be written as strings, and a list
of one element as that element. A reader accepts the encodings of one kind and refuses
all others with an error that names the attribute, the kind and what was found.
-/

namespace OpGraph

/-- Attributes of one operator as the source model gives them. -/
abbrev RawRecord := OrderedMap String AttrValue

namespace RawRecord

variable {α : Type}

/-- Take what was read, or report an attribute as unusable. -/
def accept (name : String) (expected : AttrKind) (value : AttrValue) :
    Option α → Except GraphError α
  | some result => .ok result
  | none => .error (.invalidAttribute name (.kind expected value.kind))

/-- Integer, truth value as one or zero, or text of an integer. -/
def asInt? : AttrValue → Option Int
  | .int value => some value
  | .bool value => some (if value then 1 else 0)
  | .str text => Text.readInt64? (Text.trim text.toList)
  | _ => none

/-- Float, integer, or text of a float. -/
def asFloat? : AttrValue → Option Float
  | .str text => Text.readFloat? (Text.trim text.toList)
  | value => value.float?

/-- Truth value in words or digits, in any case of the letters. -/
def boolOfText? (text : List Char) : Option Bool :=
  let word := String.ofList ((Text.trim text).map Char.toLower)
  if word = "true" ∨ word = "1" then some true
  else if word = "false" ∨ word = "0" then some false
  else none

/-- Truth value, integer other than zero, or text of a truth value. -/
def asBool? : AttrValue → Option Bool
  | .bool value => some value
  | .int value => some (value ≠ 0)
  | .str text => boolOfText? text.toList
  | _ => none

/-- List of integers, a single integer, or text of a list. -/
def asInts? : AttrValue → Option (List Int)
  | .ints values => some values
  | .int value => some [value]
  | .str text => Text.readList? Text.readInt64? text.toList
  | _ => none

/-- List of floats or integers, a single float, or text of a list. -/
def asFloats? : AttrValue → Option (List Float)
  | .floats values => some values
  | .ints values => some (values.map Binary64.ofInt)
  | .float value => some [value]
  | .str text => Text.readList? Text.readFloat? text.toList
  | _ => none

/-- Read an attribute with a default for an absent one. -/
def readOr (record : RawRecord) (name : String) (kind : AttrKind) (read? : AttrValue → Option α)
    (default : α) : Except GraphError α :=
  match record.get? name with
  | none => .ok default
  | some value => accept name kind value (read? value)

/-- Read an attribute that must be present. -/
def require (record : RawRecord) (name : String) (kind : AttrKind)
    (read? : AttrValue → Option α) : Except GraphError α :=
  match record.get? name with
  | none => .error (.missingAttribute name)
  | some value => accept name kind value (read? value)

/-- Integer, or a default. -/
def intOr (record : RawRecord) (name : String) (default : Int) : Except GraphError Int :=
  record.readOr name .int asInt? default

/-- Float, or a default. -/
def floatOr (record : RawRecord) (name : String) (default : Float) : Except GraphError Float :=
  record.readOr name .float asFloat? default

/-- String, or a default. -/
def strOr (record : RawRecord) (name : String) (default : String) : Except GraphError String :=
  record.readOr name .string AttrValue.str? default

/-- Truth value, or a default. -/
def boolOr (record : RawRecord) (name : String) (default : Bool) : Except GraphError Bool :=
  record.readOr name .bool asBool? default

/-- List of integers, or a default. -/
def intsOr (record : RawRecord) (name : String) (default : List Int) :
    Except GraphError (List Int) :=
  record.readOr name .intList asInts? default

/-- List of floats, or a default. -/
def floatsOr (record : RawRecord) (name : String) (default : List Float) :
    Except GraphError (List Float) :=
  record.readOr name .floatList asFloats? default

/-- Integer that must be present. -/
def requireInt (record : RawRecord) (name : String) : Except GraphError Int :=
  record.require name .int asInt?

/-- String that must be present. -/
def requireStr (record : RawRecord) (name : String) : Except GraphError String :=
  record.require name .string AttrValue.str?

/-- List of integers that must be present. -/
def requireInts (record : RawRecord) (name : String) : Except GraphError (List Int) :=
  record.require name .intList asInts?

end RawRecord

end OpGraph
