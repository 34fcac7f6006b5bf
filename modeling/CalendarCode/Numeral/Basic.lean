/-!
This module contains what a number needs to be written and read: the texts that it has in messages,
in descriptions of decoded ranges and in JSON, and the number that a decimal literal stands for.
-/

namespace CalendarCode

class Numeral (α : Type) where
  /-- All significant digits and no power of ten. -/
  plain : α → String
  /-- Two digits behind the point. -/
  hundredths : α → String
  /-- A JSON value. -/
  json : α → String
  /-- The number `significand * 10 ^ exponent` with a sign, if it is not beyond all numbers. -/
  ofLiteral? (negative : Bool) (significand : Nat) (exponent : Int) : Option α

end CalendarCode
