import CalendarCode.Arith.Basic
import CalendarCode.Binary64.Integer
import CalendarCode.Binary64.Remainder

/-!
This module makes the floating point numbers an instance of `Arith`: every operation rounds to the
nearest number.
-/

namespace CalendarCode

instance : Arith Float where
  decidableLT := inferInstance
  decidableLE := inferInstance
  ofInt := Binary64.ofInt
  isFinite := Float.isFinite
  abs := Float.abs
  modulo := Binary64.modulo
  truncate := Binary64.truncate
  ceil := Binary64.ceil

end CalendarCode
