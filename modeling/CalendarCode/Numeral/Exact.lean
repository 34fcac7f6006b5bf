import CalendarCode.Decimal.Notation
import CalendarCode.Numeral.Basic

/-!
This module contains the texts of rational numbers: a quotient where all digits are asked for, and a
rounded text where two places are.
-/

namespace CalendarCode

/-- A fraction in lowest terms; a whole number has no denominator. -/
def Numeral.quotientText (x : Rat) : String :=
  if x.den = 1 then toString x.num else toString x.num ++ "/" ++ toString x.den

instance : Numeral Rat where
  plain := Numeral.quotientText
  hundredths x :=
    let size := Decimal.hundredths (Decimal.divNearest .toEven (100 * x.num.natAbs) x.den)
    String.ofList (if x.num < 0 then '-' :: size else size)
  json := Numeral.quotientText
  ofLiteral? negative significand exponent :=
    let size : Rat :=
      mkRat (significand * Nat.pow 10 exponent.toNat : Nat) (Nat.pow 10 (-exponent).toNat)
    some (if negative then -size else size)

end CalendarCode
