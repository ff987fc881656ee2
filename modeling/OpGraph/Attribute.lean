import OpGraph.OrderedMap
import OpGraph.Binary64

/-!
# Attributes of operator nodes

An attribute value belongs to one of seven kinds. The attributes of a node are
an ordered map from names to values together with a record of the names that
were removed from it, so a deletion can be told from an absence.
-/

namespace OpGraph

/-- Kind of an attribute value. -/
inductive AttrKind where
  | int
  | float
  | string
  | bool
  | intList
  | floatList
  | stringList
  deriving DecidableEq

/-- Wording of a kind in messages. -/
def AttrKind.name : AttrKind → String
  | .int => "int"
  | .float => "float"
  | .string => "string"
  | .bool => "bool"
  | .intList => "int list"
  | .floatList => "float list"
  | .stringList => "string list"

instance : ToString AttrKind := ⟨AttrKind.name⟩

/-- Value of one attribute. -/
inductive AttrValue where
  | int (value : Int)
  | float (value : Float)
  | str (value : String)
  | bool (value : Bool)
  | ints (values : List Int)
  | floats (values : List Float)
  | strs (values : List String)

namespace AttrValue

/-- Kind of a value. -/
def kind : AttrValue → AttrKind
  | int _ => .int
  | float _ => .float
  | str _ => .string
  | bool _ => .bool
  | ints _ => .intList
  | floats _ => .floatList
  | strs _ => .stringList

/-- Values of different kinds differ; floats compare numerically, so zero equals
its negative and a not-a-number differs from itself. -/
def beq : AttrValue → AttrValue → Bool
  | int a, int b => a == b
  | float a, float b => a == b
  | str a, str b => a == b
  | bool a, bool b => a == b
  | ints a, ints b => a == b
  | floats a, floats b => a == b
  | strs a, strs b => a == b
  | _, _ => false

instance : BEq AttrValue := ⟨beq⟩

/-- The integer, if the value is one. -/
def int? : AttrValue → Option Int
  | int value => some value
  | _ => none

/-- The number as a float; an integer is rounded to the nearest float. -/
def float? : AttrValue → Option Float
  | float value => some value
  | int value => some (Binary64.ofInt value)
  | _ => none

/-- The string, if the value is one. -/
def str? : AttrValue → Option String
  | str value => some value
  | _ => none

/-- The truth value, if the value is one. -/
def bool? : AttrValue → Option Bool
  | bool value => some value
  | _ => none

/-- The list of integers, if the value is one. -/
def ints? : AttrValue → Option (List Int)
  | ints values => some values
  | _ => none

/-- The list of floats, if the value is one. -/
def floats? : AttrValue → Option (List Float)
  | floats values => some values
  | _ => none

/-- Number of elements of a list of any kind. -/
def length? : AttrValue → Option Nat
  | ints values => some values.length
  | floats values => some values.length
  | strs values => some values.length
  | _ => none

/-- A true truth value or an integer other than zero. -/
def isTruthy : AttrValue → Bool
  | bool value => value
  | int value => value ≠ 0
  | _ => false

end AttrValue

/-- Attributes of a node and the record of removed ones. -/
structure Attributes where
  /-- Present attributes in the order in which their names were first set. -/
  values : OrderedMap String AttrValue
  /-- Names that were removed and not set again, oldest removal first. -/
  removed : List String

namespace Attributes

/-- No attribute present and none removed. -/
def empty : Attributes := ⟨∅, []⟩

instance : Inhabited Attributes := ⟨empty⟩

/-- Value of a present attribute. -/
def get? (attributes : Attributes) (name : String) : Option AttrValue := attributes.values.get? name

/-- Whether an attribute is present. -/
def contains (attributes : Attributes) (name : String) : Bool := attributes.values.contains name

/-- Store a value and forget that the name was ever removed. -/
def set (attributes : Attributes) (name : String) (value : AttrValue) : Attributes :=
  ⟨attributes.values.insert name value, attributes.removed.filter (· ≠ name)⟩

/-- Remove a present attribute and put its name on record; an absent one leaves no record. -/
def erase (attributes : Attributes) (name : String) : Attributes :=
  if attributes.contains name then ⟨attributes.values.erase name, attributes.removed ++ [name]⟩
  else attributes

/-- Whether a name was removed and not set again. -/
def wasRemoved (attributes : Attributes) (name : String) : Bool := attributes.removed.contains name

/-- Whether an attribute is present and truthy. -/
def isSet (attributes : Attributes) (name : String) : Bool :=
  (attributes.get? name).any AttrValue.isTruthy

/-- Integer attribute of that name. -/
def int? (attributes : Attributes) (name : String) : Option Int :=
  (attributes.get? name).bind AttrValue.int?

/-- String attribute of that name. -/
def str? (attributes : Attributes) (name : String) : Option String :=
  (attributes.get? name).bind AttrValue.str?

/-- Integer list attribute of that name. -/
def ints? (attributes : Attributes) (name : String) : Option (List Int) :=
  (attributes.get? name).bind AttrValue.ints?

/-- Float list attribute of that name. -/
def floats? (attributes : Attributes) (name : String) : Option (List Float) :=
  (attributes.get? name).bind AttrValue.floats?

/-- Remove several attributes one after another. -/
def eraseAll (attributes : Attributes) (names : List String) : Attributes :=
  names.foldl erase attributes

/-- Attributes from pairs; a repeated name keeps its first place and its last value. -/
def ofList (entries : List (String × AttrValue)) : Attributes := ⟨OrderedMap.ofList entries, []⟩

/-- Under each name there is what stands with it in the list. -/
theorem get?_ofList {entries : List (String × AttrValue)} (hnodup : (entries.map Prod.fst).Nodup)
    (name : String) : (ofList entries).get? name = entries.lookup name :=
  OrderedMap.get?_ofList hnodup name

/-- A name is listed exactly if its attribute is present. -/
theorem mem_keys_iff {attributes : Attributes} {name : String} :
    name ∈ attributes.values.keys ↔ attributes.contains name = true := by
  rw [contains, OrderedMap.contains, List.contains_iff_mem]

/-- An attribute is present exactly if it has a value. -/
theorem contains_iff_isSome {attributes : Attributes} {name : String} :
    attributes.contains name = true ↔ (attributes.get? name).isSome = true :=
  attributes.values.contains_iff_isSome name

/-- Setting an attribute decides its value and no other. -/
theorem get?_set (attributes : Attributes) (name other : String) (value : AttrValue) :
    (attributes.set name value).get? other =
      if other = name then some value else attributes.get? other :=
  attributes.values.get?_insert name other value

/-- A name that is set stays where it is listed or goes to the end. -/
theorem keys_set (attributes : Attributes) (name : String) (value : AttrValue) :
    (attributes.set name value).values.keys =
      if attributes.contains name then attributes.values.keys else attributes.values.keys ++ [name] :=
  attributes.values.keys_insert name value

/-- Setting an attribute takes its name off the record. -/
theorem mem_removed_set {attributes : Attributes} {name other : String} {value : AttrValue} :
    other ∈ (attributes.set name value).removed ↔ other ∈ attributes.removed ∧ other ≠ name := by
  simp [set]

/-- The name of a present attribute goes from the list of those present to the end of the record. -/
theorem erase_of_contains {attributes : Attributes} {name : String}
    (h : attributes.contains name = true) :
    attributes.erase name = ⟨attributes.values.erase name, attributes.removed ++ [name]⟩ :=
  if_pos h

/-- Removing an absent attribute changes nothing. -/
theorem erase_of_absent {attributes : Attributes} {name : String}
    (h : ¬attributes.contains name = true) : attributes.erase name = attributes :=
  if_neg h

/-- Removing an attribute leaves the others alone. -/
theorem get?_erase_of_ne {attributes : Attributes} {name other : String} (h : other ≠ name) :
    (attributes.erase name).get? other = attributes.get? other := by
  unfold erase
  split
  · exact (attributes.values.get?_erase name other).trans (if_neg h)
  · rfl

/-- Removing attributes leaves the others alone. -/
theorem get?_eraseAll_of_notMem {attributes : Attributes} {names : List String} {other : String}
    (h : other ∉ names) : (attributes.eraseAll names).get? other = attributes.get? other := by
  induction names generalizing attributes with
  | nil => rfl
  | cons name rest ih =>
    rw [List.mem_cons, not_or] at h
    change ((attributes.erase name).eraseAll rest).get? other = _
    rw [ih h.2, get?_erase_of_ne h.1]

end Attributes

end OpGraph
