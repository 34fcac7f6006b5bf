import CalendarCode.Arith.Basic

/-!
This module contains JSON values. An object is the list of its fields in the order in which they are
visited.
-/

namespace CalendarCode

/--
A JSON value. Integers that fit a machine word are kept as they are, all other numbers are of the
type `α`.
-/
inductive Json (α : Type) where
  | null
  | bool (b : Bool)
  /-- A natural number below `2 ^ 64`. -/
  | natural (n : UInt64)
  /-- A negative integer from `-2 ^ 63` on. -/
  | negative (i : Int64)
  | real (x : α)
  | string (s : String)
  | array (items : List (Json α))
  | object (fields : List (String × Json α))

namespace Json

variable {α : Type}

def ofReal [Arith α] (x : α) : Json α :=
  if Arith.isFinite x then .real x else .null

def natural? : Json α → Option UInt64
  | .natural n => some n
  | _ => none

def number? [Arith α] : Json α → Option α
  | .natural n => some (Arith.ofNat n.toNat)
  | .negative i => some (Arith.ofInt i.toInt)
  | .real x => some x
  | _ => none

def string? : Json α → Option String
  | .string s => some s
  | _ => none

def strings (ss : List String) : Json α :=
  .array (ss.map .string)

/-- Puts a field at its place in ascending order of keys; a field of the same key is replaced. -/
def insertField (key : String) (v : Json α) :
    List (String × Json α) → List (String × Json α)
  | [] => [(key, v)]
  | (k, u) :: fields =>
    if key < k then (key, v) :: (k, u) :: fields
    else if key = k then (key, v) :: fields
    else (k, u) :: insertField key v fields

/-- The object with these fields in ascending order of keys; the last of equal keys stays. -/
def sortedObject (fields : List (String × Json α)) : Json α :=
  .object (fields.foldl (fun sorted (key, v) => insertField key v sorted) [])

end Json

end CalendarCode
