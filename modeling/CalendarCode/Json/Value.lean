import CalendarCode.Json.Basic
import CalendarCode.Json.Grammar
import CalendarCode.Numeral.Basic

/-!
This module contains the values of JSON texts. A value has at most 127 containers inside each other,
its numbers are not beyond all bounds, its strings have no half of a surrogate pair, and its fields
are in ascending order of keys.
-/

namespace CalendarCode.Json

variable {α : Type} [Numeral α]

def Literal.real? (l : Literal) : Option α :=
  let (significand, exponent) := l.scientific
  Numeral.ofLiteral? l.negative significand exponent

/-- Integers that fit a machine word stay integers, but a negative zero is none. -/
def Literal.value? (l : Literal) : Option (Json α) :=
  match l.natural? with
  | some n =>
    if ¬l.negative then some (.natural n.toUInt64)
    else if 0 < n ∧ n ≤ 9223372036854775808 then some (.negative (Int64.ofInt (-n)))
    else l.real?.map .real
  | none => l.real?.map .real

mutual

def ofWritten? (room : Nat) : Written → Option (Json α)
  | .null => some .null
  | .bool b => some (.bool b)
  | .number l => l.value?
  | .string units => units.string?.map .string
  | .array items => if room = 0 then none else (ofItems? (room - 1) items).map .array
  | .object fields => if room = 0 then none else (ofFields? (room - 1) fields).map sortedObject

def ofItems? (room : Nat) : List Written → Option (List (Json α))
  | [] => some []
  | w :: ws => do
    let v ← ofWritten? room w
    let vs ← ofItems? room ws
    return v :: vs

def ofFields? (room : Nat) : List (Units × Written) → Option (List (String × Json α))
  | [] => some []
  | (units, w) :: ws => do
    let key ← units.string?
    let v ← ofWritten? room w
    let fields ← ofFields? room ws
    return (key, v) :: fields

end

def ofText? (text : String) : Option (Json α) :=
  (Written.ofText? text).bind (ofWritten? 127)

end CalendarCode.Json
