import CalendarCode.Json.Value
import CalendarCode.Scalar.Config

/-!
This module contains the settings of a scalar codec as JSON: an object with one field for each
setting. The same values may also come as an array, in the order of the fields. The last two
settings may be left out, and an object may have fields of other names, which do not count.
-/

namespace CalendarCode.ScalarConfig

open Json

variable {α : Type} [Arith α]

def toJson (c : ScalarConfig α) : Json α :=
  .object [
    ("w", .natural c.width.toUInt64),
    ("min_value", .ofReal c.low),
    ("max_value", .ofReal c.high),
    ("radius", .ofReal c.radius),
    ("periodic", .bool c.periodic),
    ("name", match c.name with | some s => .string s | none => .null)]

def width? : Written → Option Nat
  | .number l => if l.negative then none else l.natural?
  | _ => none

def flag? : Written → Option Bool
  | .bool b => some b
  | _ => none

def label? : Written → Option (Option String)
  | .null => some none
  | .string units => units.string?.map some
  | _ => none

def keys : List String :=
  ["w", "min_value", "max_value", "radius", "periodic", "name"]

variable [Numeral α]

def real? : Written → Option α
  | .number l => do
    let v : Json α ← l.value?
    v.number?
  | _ => none

def ofValues? (width low high radius : Written) (periodic name : Option Written) :
    Option (ScalarConfig α) := do
  return {
    width := ← width? width
    low := ← real? low
    high := ← real? high
    radius := ← real? radius
    periodic := ← (periodic.map flag?).getD (some false)
    name := ← (name.map label?).getD (some none)
  }

/-- The settings that are written; a setting may be written only once. -/
def ofWritten? : Written → Option (ScalarConfig α)
  | .array items =>
    if items.length ≤ 6 then do
      ofValues? (← items[0]?) (← items[1]?) (← items[2]?) (← items[3]?) items[4]? items[5]?
    else none
  | .object fields => do
    let fields ← fields.mapM fun (units, v) => units.string?.map (·, v)
    if keys.any fun key => 1 < fields.countP (·.1 == key) then none
    else
      let at? (key : String) : Option Written := fields.lookup key
      ofValues? (← at? "w") (← at? "min_value") (← at? "max_value") (← at? "radius")
        (at? "periodic") (at? "name")
  | _ => none

def ofText? (text : String) : Option (ScalarConfig α) :=
  (Written.ofText? text).bind ofWritten?

end CalendarCode.ScalarConfig
