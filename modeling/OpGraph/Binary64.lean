/-!
# Nearest binary64 number

Rounding of an exact ratio of natural numbers to the nearest number of the IEEE
format binary64, ties going to the even significand. The rounding is exact
arithmetic on natural numbers; only the last step packs the result into a `Float`.
-/

namespace OpGraph.Binary64

/-- Quotient rounded to the nearest integer, a tie going to the even one. -/
def roundDiv (numerator denominator : Nat) : Nat :=
  let quotient := numerator / denominator
  let remainder := numerator % denominator
  if 2 * remainder < denominator then quotient
  else if denominator < 2 * remainder then quotient + 1
  else quotient + quotient % 2

/-- Exponent of two of the unit in the last place of the least normal number. -/
def leastExponent : Int := -1074

/-- Bit pattern of positive infinity, above that of every finite number. -/
def infinityBits : Nat := 2047 <<< 52

/-- Position of the sign bit. -/
def signBit : Nat := 1 <<< 63

/-- The integer `e` with `2 ^ e ≤ numerator / denominator < 2 ^ (e + 1)`, for positive arguments. -/
def floorLog2 (numerator denominator : Nat) : Int :=
  let estimate : Int := (numerator.log2 : Int) - denominator.log2
  let reached :=
    if estimate < 0 then denominator ≤ numerator <<< estimate.natAbs
    else denominator <<< estimate.toNat ≤ numerator
  if reached then estimate else estimate - 1

/-- Bits of the number nearest to a non-negative ratio. A significand that rounds
up to the next power of two carries into the exponent field, and a value beyond
the largest finite number becomes infinity. -/
def nearestBits (numerator denominator : Nat) : Nat :=
  if numerator = 0 then 0
  else
    let unit := max (floorLog2 numerator denominator - 52) leastExponent
    let significand :=
      if unit < 0 then roundDiv (numerator <<< unit.natAbs) denominator
      else roundDiv numerator (denominator <<< unit.toNat)
    min ((unit - leastExponent).toNat <<< 52 + significand) infinityBits

/-- Attach a sign to a bit pattern and read it as a number. -/
def ofSignedBits (negative : Bool) (bits : Nat) : Float :=
  Float.ofBits (UInt64.ofNat (if negative then signBit + bits else bits))

/-- The number nearest to a signed ratio. -/
def ofRatio (negative : Bool) (numerator denominator : Nat) : Float :=
  ofSignedBits negative (nearestBits numerator denominator)

/-- The number nearest to an integer. -/
def ofInt (value : Int) : Float := ofRatio (value < 0) value.natAbs 1

/-- Positive or negative infinity. -/
def infinity (negative : Bool) : Float := ofSignedBits negative infinityBits

/-- A quiet not-a-number. -/
def notANumber : Float := ofSignedBits false (infinityBits + 1 <<< 51)

/-- Exact values, a tie to the even neighbour, and both ends of the range. -/
example : nearestBits 1 1 = 0x3ff0000000000000 ∧ nearestBits (1 <<< 53 + 1) 1 = nearestBits (1 <<< 53) 1 ∧
    nearestBits 1 (1 <<< 1074) = 1 ∧ nearestBits 1 (1 <<< 1075) = 0 ∧
    nearestBits (1 <<< 1024) 1 = infinityBits := by decide +kernel

end OpGraph.Binary64
