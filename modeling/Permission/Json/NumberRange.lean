/-!
# The range of JSON numbers

A number is read as a 64-bit significand times a power of ten, and the product is rounded to a
binary number of 53 bits with an exponent below 1024.  This module says which literals lie outside
that range.  A literal is given by its integer digits, its fraction digits and its exponent.
-/

set_option autoImplicit false

namespace Permission
namespace Json

def largestSignificand : Nat := 0xFFFFFFFFFFFFFFFF

def digitValue (digit : Char) : Nat :=
  digit.toNat - '0'.toNat

/-- Takes integer digits into a significand as long as they fit.  The count of the digits that are
left over comes with it; each of them raises the exponent by one. -/
def takeInteger (significand : Nat) : List Char → Nat × Nat
  | [] => (significand, 0)
  | digit :: digits =>
    if largestSignificand < significand * 10 + digitValue digit then
      (significand, digits.length + 1)
    else
      takeInteger (significand * 10 + digitValue digit) digits

/-- Takes fraction digits into a significand as long as they fit.  The count of the digits that
were taken comes with it; each of them lowers the exponent by one, and the other ones are
dropped. -/
def takeFraction (significand : Nat) : List Char → Nat × Nat
  | [] => (significand, 0)
  | digit :: digits =>
    if largestSignificand < significand * 10 + digitValue digit then
      (significand, 0)
    else
      let (final, taken) := takeFraction (significand * 10 + digitValue digit) digits
      (final, taken + 1)

/-- The nearest number of at most 53 significant bits; a tie goes to the even neighbour. -/
def nearestBinary (value : Nat) : Nat :=
  let unit := Nat.pow 2 (value.log2 + 1 - 53)
  let quotient := value / unit
  let doubled := 2 * (value % unit)
  if unit < doubled ∨ (doubled = unit ∧ quotient % 2 = 1) then
    (quotient + 1) * unit
  else
    quotient * unit

def beyondRange (significand : Nat) (exponent : Int) : Bool :=
  if significand = 0 then
    false
  else if exponent < 0 then
    false
  else if 308 < exponent then
    true
  else
    -- The factors are rounded before they are multiplied, and the product once more.
    Nat.pow 2 1024 ≤
      nearestBinary (nearestBinary significand * nearestBinary (Nat.pow 10 exponent.toNat))

def outOfRange (integer fraction : List Char) (exponent : Int) : Bool :=
  let (whole, leftOver) := takeInteger 0 integer
  let (significand, taken) := takeFraction whole fraction
  beyondRange significand (leftOver - taken + exponent)

end Json
end Permission
