import CalendarCode.Binary64.Scale
import CalendarCode.Decimal.Notation
import CalendarCode.Decimal.Shortest
import CalendarCode.Numeral.Basic

/-!
This module contains the texts of floating point numbers. Plain and JSON texts have the fewest
digits that are read back as the same number. A JSON text always shows that it is no integer, by a
point or by a power of ten.
-/

namespace CalendarCode

namespace Binary64

def withSign (x : Float) (write : Parts → List Char) : String :=
  match Parts.ofFloat? x with
  | some p => String.ofList (if p.negative then '-' :: write p else write p)
  | none => if x.isNaN then "NaN" else if x < 0.0 then "-inf" else "inf"

def plainText (x : Float) : String :=
  withSign x fun p => (Decimal.shortest .up p).positional

def hundredthsText (x : Float) : String :=
  withSign x fun p =>
    Decimal.hundredths (Decimal.divNearest .toEven (100 * p.fraction.1) p.fraction.2)

/-- Numbers from `10 ^ -5` up to `10 ^ 16` are positional. There is no text for the others. -/
def jsonText (x : Float) : String :=
  if x.isFinite then
    withSign x fun p =>
      let d := Decimal.shortest .toEven p
      if -5 ≤ d.magnitude ∧ d.magnitude < 16 then
        if 0 ≤ d.exponent then d.positional ++ ['.', '0'] else d.positional
      else d.scientific
  else "null"

end Binary64

instance : Numeral Float where
  plain := Binary64.plainText
  hundredths := Binary64.hundredthsText
  json := Binary64.jsonText
  ofLiteral? := Binary64.ofLiteral?

end CalendarCode
