/-!
# Signed 64-bit range

Integers of this library are unbounded. Where a number has to fit into a signed
64-bit word, these functions test it, product by product.
-/

namespace OpGraph.Int64

/-- Least signed 64-bit integer. -/
def least : Int := -9223372036854775808

/-- Largest signed 64-bit integer. -/
def greatest : Int := 9223372036854775807

/-- An integer that fits into a signed 64-bit word. -/
def fits (value : Int) : Bool := least ≤ value && value ≤ greatest

/-- Product of two integers, if it fits. -/
def product? (a b : Int) : Option Int := some (a * b) |>.filter fits

/-- Product of a number with several factors, if every product on the way fits. -/
def productOf? (start : Int) (factors : List Int) : Option Int := factors.foldlM product? start

end OpGraph.Int64
