import CalendarCode.Code.Basic
import CalendarCode.Code.Row
import CalendarCode.Scalar.Codec

/-!
This module contains the encoding of a value as a run of active positions. A value that is not
finite is missing and has no active position at all.
-/

namespace CalendarCode.ScalarCodec

variable {α : Type} [Arith α] (k : ScalarCodec α)

/-- The bucket of a value: the central active position on a circle, the first one on a line. -/
def bucket? (v : α) : Option Nat :=
  (k.start? v).map fun (s : Int) =>
    if k.periodic then (Word.wrap (s + k.halfwidth) % (k.size : Int)).toNat else Word.unsigned s

def encode (v : α) : Code :=
  match k.start? v with
  | some s =>
    let n := k.size
    .ofFn n (inRun k.periodic n s (k.runLength s))
  | none => .zeros k.size

def encodeInto (v : α) (code : Code) : Except (Error α) Code :=
  if code.size = k.size then
    match k.start? v with
    | some s => .ok (code.overwrite (inRun k.periodic code.size s (k.runLength s)))
    | none => .ok (code.fill 0)
  else .error (.size k.size code.size)

@[simp]
theorem size_encode (v : α) : (k.encode v).size = k.size := by
  unfold encode
  split <;> simp

end CalendarCode.ScalarCodec
