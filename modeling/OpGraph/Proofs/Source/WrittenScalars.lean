import OpGraph.Proofs.Source.PoolingRecords

/-!
# Integers and truth values written as texts

A format that knows only texts writes an integer as its numeral and a truth value as a word. Either
text is read back as the value by the readers of its own kind, and the numerals of zero and one are
read as truth values too, as these two integers are. A truth value also counts as an integer, but its
word is not a numeral: it is refused with an error that names the attribute, the kind that was asked
for and a string. Nothing is said of other integers where a truth value is asked for.
-/

namespace OpGraph

/-! ### Words and numerals -/

namespace Text

variable {text : List Char} {value other : Int} {flag : Bool}

/-- Word for a truth value. -/
def word : Bool → List Char
  | true => ['T', 'r', 'u', 'e']
  | false => ['F', 'a', 'l', 's', 'e']

/-- The text writes a truth value, with blanks around the word. -/
def WritesFlag (flag : Bool) (text : List Char) : Prop :=
  ∃ before after, AllBlank before ∧ AllBlank after ∧ text = before ++ word flag ++ after

theorem WritesFlag.trim_eq (h : WritesFlag flag text) : trim text = word flag := by
  obtain ⟨before, after, hbefore, hafter, rfl⟩ := h
  rw [trim_append hbefore hafter]
  cases flag <;> decide +kernel

end Text

/-! ### Reading them back -/

/-- The text writes an integer of 64 bits or a truth value. -/
inductive AttrValue.WritesScalar : AttrValue → List Char → Prop where
  | int {value : Int} {text : List Char} : Int64.fits value = true → Text.WritesInt value text →
      WritesScalar (.int value) text
  | bool {flag : Bool} {text : List Char} : Text.WritesFlag flag text → WritesScalar (.bool flag) text

/-- The value stands for a truth value: it is one, or it is zero or one. -/
def AttrValue.IsFlag : AttrValue → Prop
  | .bool _ => True
  | .int value => value = 0 ∨ value = 1
  | _ => False

namespace RawRecord

variable {record native written : RawRecord} {name text : String} {value : AttrValue}
  {letters : List Char} {α : Type} {read? : AttrValue → Option α}

/-- What the readers of integers make of the text of a value. -/
theorem asInt?_str_of_writesScalar (h : value.WritesScalar text.toList) :
    asInt? (.str text) = if value.kind = .int then asInt? value else none := by
  change Text.readInt64? (Text.trim text.toList) = _
  cases h with
  | int hfits htext =>
    rw [htext.trim_eq, Text.readInt64?_numeral hfits]
    rfl
  | bool htext =>
    rename_i flag
    rw [htext.trim_eq]
    cases flag <;> decide +kernel

/-- The reader of truth values makes the same of a value that stands for one and of its text. -/
theorem asBool?_str_of_writesScalar (h : value.WritesScalar text.toList) (hflag : value.IsFlag) :
    ∃ flag, asBool? value = some flag ∧ asBool? (.str text) = some flag := by
  change ∃ flag, _ ∧ boolOfText? text.toList = some flag
  unfold boolOfText?
  cases h with
  | int _ htext =>
    rw [htext.trim_eq]
    rcases hflag with rfl | rfl
    · exact ⟨false, rfl, by decide +kernel⟩
    · exact ⟨true, rfl, by decide +kernel⟩
  | @bool flag _ htext =>
    rw [htext.trim_eq]
    refine ⟨flag, rfl, ?_⟩
    cases flag <;> decide +kernel

/-- A reader that takes a value, and its text under a condition, takes them from records alike under
the condition, and otherwise refuses the text. -/
theorem read_text_eq (kind : AttrKind) {condition : Prop} [Decidable condition] {result : α}
    (hnative : native.get? name = some value) (hwritten : written.get? name = some (.str text))
    (hvalue : read? value = some result)
    (htext : read? (.str text) = if condition then read? value else none) :
    (written.require name kind read? = if condition then native.require name kind read?
      else .error (.invalidAttribute name (.kind kind .string))) ∧
    ∀ default, written.readOr name kind read? default =
      if condition then native.readOr name kind read? default
      else .error (.invalidAttribute name (.kind kind .string)) := by
  have hrequire : native.require name kind read? = .ok result := require_eq_ok hnative hvalue
  have hor : ∀ default, native.readOr name kind read? default = .ok result :=
    readOr_eq_ok hnative hvalue
  by_cases hcondition : condition
  · rw [if_pos hcondition, hvalue] at htext
    simp only [if_pos hcondition, hrequire, hor]
    exact ⟨require_eq_ok hwritten htext, readOr_eq_ok hwritten htext⟩
  · rw [if_neg hcondition] at htext
    simp only [if_neg hcondition, require, readOr, hwritten, htext]
    exact ⟨rfl, fun _ => rfl⟩

/-- An integer or a truth value is taken by the readers of integers. -/
theorem exists_asInt?_of_writesScalar (h : value.WritesScalar letters) :
    ∃ number, asInt? value = some number := by
  cases h with
  | int _ _ => exact ⟨_, rfl⟩
  | bool _ => exact ⟨_, rfl⟩

/-- An integer or a truth value is taken by the readers of integers, whether there is a default for
an absent one or not. From the text that writes it they get the same if it is an integer, and they
refuse the text if it is a truth value. The reader of truth values gets the same from a truth value,
from zero and from one as from the text. -/
theorem written_scalars_read_back (hnative : native.get? name = some value)
    (hwritten : written.get? name = some (.str text)) (htext : value.WritesScalar text.toList) :
    (∃ number, native.requireInt name = .ok number ∧
        ∀ default, native.intOr name default = .ok number) ∧
      (written.requireInt name = if value.kind = .int then native.requireInt name
        else .error (.invalidAttribute name (.kind .int .string))) ∧
      (∀ default, written.intOr name default =
        if value.kind = .int then native.intOr name default
        else .error (.invalidAttribute name (.kind .int .string))) ∧
      (value.IsFlag → ∃ flag, ∀ default,
        native.boolOr name default = .ok flag ∧ written.boolOr name default = .ok flag) := by
  obtain ⟨number, hnumber⟩ := exists_asInt?_of_writesScalar htext
  obtain ⟨hrequire, hint⟩ := read_text_eq .int hnative hwritten hnumber
    (asInt?_str_of_writesScalar htext)
  refine ⟨⟨number, require_eq_ok hnative hnumber, readOr_eq_ok hnative hnumber⟩, hrequire, hint,
    fun hflag => ?_⟩
  obtain ⟨flag, hvalue, hsame⟩ := asBool?_str_of_writesScalar htext hflag
  exact ⟨flag, fun default =>
    ⟨readOr_eq_ok hnative hvalue default, readOr_eq_ok hwritten hsame default⟩⟩

/-- A record with one attribute. -/
def single (name : String) (value : AttrValue) : RawRecord := .ofList [(name, value)]

/-- The least integer is read back from its numeral. -/
theorem written_scalars_read_back_least :
    (single "axis" (.int (-9223372036854775808))).requireInt "axis" =
        .ok (-9223372036854775808) ∧
      (single "axis" (.str "-9223372036854775808")).requireInt "axis" =
        .ok (-9223372036854775808) := by
  have hwrites : (AttrValue.int (-9223372036854775808)).WritesScalar
      "-9223372036854775808".toList :=
    .int (by decide) ⟨[], [], Text.allBlank_nil, Text.allBlank_nil, by decide +kernel⟩
  have hnative : (single "axis" (.int (-9223372036854775808))).get? "axis" =
      some (.int (-9223372036854775808)) := rfl
  have hwritten : (single "axis" (.str "-9223372036854775808")).get? "axis" =
      some (.str "-9223372036854775808") := rfl
  obtain ⟨_, hrequire, _⟩ := written_scalars_read_back hnative hwritten hwrites
  exact ⟨rfl, hrequire⟩

/-- A true value counts as the integer one, and its word does not. -/
theorem word_refused_as_integer :
    (AttrValue.bool true).WritesScalar "True".toList ∧
      (single "axis" (.bool true)).requireInt "axis" = .ok 1 ∧
      (single "axis" (.str "True")).requireInt "axis" =
        .error (.invalidAttribute "axis" (.kind .int .string)) ∧
      (single "axis" (.bool true)).intOr "axis" 0 = .ok 1 ∧
      (single "axis" (.str "True")).intOr "axis" 0 =
        .error (.invalidAttribute "axis" (.kind .int .string)) := by
  refine ⟨.bool ⟨[], [], Text.allBlank_nil, Text.allBlank_nil, by decide⟩, rfl, ?_, rfl, ?_⟩
  · decide +kernel
  · decide +kernel

end RawRecord

end OpGraph
