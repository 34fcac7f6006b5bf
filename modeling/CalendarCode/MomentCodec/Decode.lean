import CalendarCode.MomentCodec.Basic
import CalendarCode.Scalar.Bucket
import CalendarCode.Scalar.Closeness
import CalendarCode.Scalar.Decode

/-!
This module contains what a code says about its fields: the ranges that each of them stands for, the
buckets that match it best, and a picture of its active positions.
-/

namespace CalendarCode

structure Decoding (α : Type) where
  entries : List (String × Option (Decoded α))

namespace Decoding

variable {α : Type}

def names (d : Decoding α) : List String :=
  d.entries.map (·.1)

def count (d : Decoding α) : Nat :=
  d.entries.length

def isEmpty (d : Decoding α) : Bool :=
  d.entries.isEmpty

def contains (d : Decoding α) (name : String) : Bool :=
  d.names.contains name

def get? (d : Decoding α) (name : String) : Option (Decoded α) :=
  (d.entries.lookup name).join

variable [Arith α]

def rangesToJson (ranges : List (α × α)) : Json α :=
  .array (ranges.map fun (low, high) => .array [.ofReal low, .ofReal high])

variable [Numeral α]

def description (d : Decoding α) : String :=
  ", ".intercalate <| d.entries.filterMap fun (name, decoded) =>
    decoded.map fun r => s!"{name}:[{r.description}]"

def fieldToJson : Option (Decoded α) → Json α
  | none => .null
  | some r =>
    .object [("description", .string r.description), ("ranges", rangesToJson r.ranges)]

/-- The fields in ascending order of names, and the order that they have in the layout. -/
def toJson (d : Decoding α) : Json α :=
  .object [
    ("fields", .sortedObject (d.entries.map fun (name, decoded) => (name, fieldToJson decoded))),
    ("order", .strings d.names)]

end Decoding

namespace MomentCodec

variable {α : Type} [Arith α] (k : MomentCodec α)

def closeness (expected actual : List α) (fractional : Bool) : Except (Error α) (List α) :=
  if expected.length ≠ k.layout.count then .error (.size k.layout.count expected.length)
  else if actual.length ≠ k.layout.count then .error (.size k.layout.count actual.length)
  else
    .ok <| List.zipWith (fun f (e, a) => f.codec.closeness e a fractional) k.fields
      (expected.zip actual)

/-- One for each active position and zero for the others, with spaces between the fields. -/
def picture (code : Code) : Except (Error α) String :=
  k.sized code <|
    .ok (" ".intercalate (k.fields.map fun f => String.ofList (slice f code).picture))

variable [Numeral α]

def decodeField (code : Code) (f : Field α) : Except (Error α) (String × Option (Decoded α)) := do
  let decoded ← f.codec.decode (slice f code)
  return (qualify k.name f.codec.displayName, decoded)

def decode (code : Code) : Except (Error α) (Decoding α) :=
  k.sized code do
    return ⟨← k.fields.mapM (k.decodeField code)⟩

def reconstruct (code : Code) : Except (Error α) (List (Bucket α)) :=
  k.sized code (k.fields.mapM fun f => f.codec.reconstruct (slice f code))

def bucketsAt (indices : List (Option Nat)) : Except (Error α) (List (Bucket α)) :=
  if indices.length = k.layout.count then
    (k.fields.zip indices).mapM fun (f, index) =>
      match index with
      | some i => f.codec.bucketAt i
      | none => .error (.bucket f.codec.displayName none f.codec.bucketCount)
  else .error (.size k.layout.count indices.length)

end MomentCodec

end CalendarCode
