import CalendarCode.Input
import CalendarCode.MomentCodec.Basic
import CalendarCode.Scalar.Encode

/-!
This module contains the encoding of moments: the codes of all fields, one after the other. Missing
data has no active position.
-/

namespace CalendarCode.MomentCodec

variable {α : Type} [Arith α] (k : MomentCodec α)

def scalar (m : Moment) (f : Field α) : α :=
  f.aspect.value (k.days.getD .empty) m

def scalars (input : Input) : Option (List α) :=
  input.map fun m => k.fields.map (k.scalar m)

def encode (input : Input) : Code :=
  match input with
  | some m => .concat (k.fields.map fun f => f.codec.encode (k.scalar m f))
  | none => .zeros k.size

/-- Overwrites a code with the encoding of an input; the code has to have the size of the codec. -/
def encodeInto (input : Input) (code : Code) : Except (Error α) Code :=
  k.sized code <|
    match input with
    | some m =>
      .ok (k.fields.foldl (fun code f => code.splice f.offset (f.codec.encode (k.scalar m f))) code)
    | none => .ok (code.fill 0)

def encodeJson (v : Json α) : Except (Error α) Code :=
  (Input.ofJson v).map k.encode

def buckets (input : Input) : List (Option Nat) :=
  match k.scalars input with
  | some values => List.zipWith (fun f v => f.codec.bucket? v) k.fields values
  | none => k.fields.map fun _ => none

end CalendarCode.MomentCodec
