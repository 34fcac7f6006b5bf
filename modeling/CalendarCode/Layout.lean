import CalendarCode.Aspect.Basic
import CalendarCode.Scalar.Codec

/-!
This module contains layouts: scalar codecs side by side, each with the positions that its code
takes in the code of all of them.
-/

namespace CalendarCode

structure Field (α : Type) [Arith α] where
  aspect : Aspect
  /-- The name in descriptions; the codec has a name of its own. -/
  name : String
  codec : ScalarCodec α
  offset : Nat

structure Layout (α : Type) [Arith α] where
  fields : List (Field α)
  size : Nat

namespace Field

variable {α : Type} [Arith α]

def size (f : Field α) : Nat :=
  f.codec.size

def stop (f : Field α) : Nat :=
  f.offset + f.size

def owns (f : Field α) (p : Nat) : Bool :=
  f.offset ≤ p && p < f.stop

def isNamed [Numeral α] (f : Field α) (name : String) : Bool :=
  f.name == name || f.codec.displayName == name

end Field

namespace Layout

variable {α : Type} [Arith α]

def empty : Layout α :=
  ⟨[], 0⟩

def push (l : Layout α) (aspect : Aspect) (name : String) (codec : ScalarCodec α) : Layout α :=
  ⟨l.fields ++ [⟨aspect, name, codec, l.size⟩], l.size + codec.size⟩

def count (l : Layout α) : Nat :=
  l.fields.length

def isEmpty (l : Layout α) : Bool :=
  l.fields.isEmpty

def get? (l : Layout α) (i : Nat) : Option (Field α) :=
  l.fields[i]?

def find? [Numeral α] (l : Layout α) (name : String) : Option (Field α) :=
  l.fields.find? (·.isNamed name)

def owner? (l : Layout α) (p : Nat) : Option (Field α) :=
  l.fields.find? (·.owns p)

@[simp]
theorem fields_push (l : Layout α) (aspect : Aspect) (name : String) (codec : ScalarCodec α) :
    (l.push aspect name codec).fields = l.fields ++ [⟨aspect, name, codec, l.size⟩] := rfl

@[simp]
theorem size_push (l : Layout α) (aspect : Aspect) (name : String) (codec : ScalarCodec α) :
    (l.push aspect name codec).size = l.size + codec.size := rfl

@[simp]
theorem count_push (l : Layout α) (aspect : Aspect) (name : String) (codec : ScalarCodec α) :
    (l.push aspect name codec).count = l.count + 1 := by
  simp [count]

end Layout

end CalendarCode
