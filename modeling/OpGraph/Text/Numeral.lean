import OpGraph.Binary64
import OpGraph.Int64

/-!
# Decimal numerals

Readers for signed 64-bit integers and for binary64 numbers. A reader takes a
whole text and refuses it unless every character belongs to the numeral.
-/

namespace OpGraph.Text

/-- A sign, if the text starts with one (true for minus), and the rest. -/
def splitSign : List Char → Bool × List Char
  | '-' :: rest => (true, rest)
  | '+' :: rest => (false, rest)
  | text => (false, text)

/-- One or more decimal digits and nothing else. -/
def readDigits? (text : List Char) : Option Nat :=
  if text ≠ [] ∧ text.all Char.isDigit then some (Nat.ofDigitChars 10 text 0) else none

/-- Digits after an optional sign, without any bound on the value. -/
def readSigned? (text : List Char) : Option Int :=
  let (negative, digits) := splitSign text
  (readDigits? digits).map fun magnitude => if negative then -(magnitude : Int) else magnitude

/-- A signed numeral whose value fits into 64 bits. -/
def readInt64? (text : List Char) : Option Int := (readSigned? text).filter Int64.fits

/-- The exact number `mantissa * 10 ^ exponent`. -/
structure Decimal where
  /-- All digits of the numeral, read as one integer. -/
  mantissa : Nat
  /-- Power of ten by which the mantissa is scaled. -/
  exponent : Int

/-- Number of decimal digits of a mantissa. -/
def Decimal.digits (number : Decimal) : Nat := (Nat.toDigits 10 number.mantissa).length

/-- Bits of the nearest binary64 number. Magnitudes of `10 ^ 310` and more are
infinite and those below `10 ^ (-330)` are zero, so no huge power is computed. -/
def Decimal.nearestBits (number : Decimal) : Nat :=
  let magnitude : Int := number.digits + number.exponent
  if number.mantissa = 0 ∨ magnitude < -330 then 0
  else if 310 < magnitude then Binary64.infinityBits
  else if number.exponent < 0 then
    Binary64.nearestBits number.mantissa (Nat.pow 10 number.exponent.natAbs)
  else Binary64.nearestBits (number.mantissa * Nat.pow 10 number.exponent.toNat) 1

/-- The exponent part at the end of a numeral; an absent part means zero. -/
def readExponent? : List Char → Option Int
  | [] => some 0
  | mark :: rest => if mark = 'e' ∨ mark = 'E' then readSigned? rest else none

/-- The fraction digits after a point, if there is a point, and the rest. -/
def splitFraction : List Char → List Char × List Char
  | '.' :: rest => (rest.takeWhile Char.isDigit, rest.dropWhile Char.isDigit)
  | text => ([], text)

/-- An unsigned decimal with optional point and exponent. At least one digit
stands before or after the point. -/
def readDecimal? (text : List Char) : Option Decimal :=
  let whole := text.takeWhile Char.isDigit
  let (fraction, rest) := splitFraction (text.dropWhile Char.isDigit)
  if whole = [] ∧ fraction = [] then none
  else (readExponent? rest).map fun exponent =>
    ⟨Nat.ofDigitChars 10 (whole ++ fraction) 0, exponent - fraction.length⟩

/-- A binary64 number: a signed decimal, or one of the words `inf`, `infinity`
and `nan` in any case of the letters, also after a sign. -/
def readFloat? (text : List Char) : Option Float :=
  let (negative, magnitude) := splitSign text
  match readDecimal? magnitude with
  | some number => some (Binary64.ofSignedBits negative number.nearestBits)
  | none =>
    let word := magnitude.map Char.toLower
    if word = ['i', 'n', 'f'] ∨ word = ['i', 'n', 'f', 'i', 'n', 'i', 't', 'y'] then
      some (Binary64.infinity negative)
    else if word = ['n', 'a', 'n'] then some Binary64.notANumber
    else none

/-- Both ends of the range are read and their outer neighbours are refused. -/
example : readInt64? "9223372036854775807".toList = some Int64.greatest ∧
    readInt64? "-9223372036854775808".toList = some Int64.least ∧
    readInt64? "9223372036854775808".toList = none ∧ readInt64? "+".toList = none := by
  decide +kernel

end OpGraph.Text
