import CalendarCode.Aspect.Basic
import CalendarCode.Error
import CalendarCode.Scalar.Config

/-!
This module contains the settings of an aspect, their JSON, and the plan of a codec that comes out
of them. In JSON a setting is zero, a width, or a pair of a width and a radius.
-/

namespace CalendarCode

abbrev Width := UInt64

/-- How an aspect is encoded. A bare width of zero also disables it. -/
inductive Setting (α : Type) where
  | disabled
  /-- A width with the default radius. -/
  | width (w : Width)
  | withRadius (w : Width) (radius : α)

structure Plan (α : Type) where
  aspect : Aspect
  width : Nat
  radius : α

namespace Plan

variable {α : Type} [Arith α]

def scalarConfig (p : Plan α) (name : String) : ScalarConfig α where
  width := p.width
  low := p.aspect.low
  high := p.aspect.high
  radius := p.radius
  periodic := p.aspect.periodic
  name := some name

end Plan

namespace Setting

variable {α : Type}

def ofWidth (w : Width) : Setting α :=
  if w = 0 then .disabled else .width w

def isEnabled : Setting α → Bool
  | .disabled => false
  | .width w => w != 0
  | .withRadius _ _ => true

variable [Arith α]

def plan (s : Setting α) (a : Aspect) : Except (ConfigFault α) (Option (Plan α)) :=
  match s with
  | .disabled => .ok none
  | .width w => .ok (if w = 0 then none else some ⟨a, w.toNat, a.defaultRadius⟩)
  | .withRadius w radius =>
    if w = 0 then .error (.inKey a.key .zeroWidthWithRadius)
    else .ok (some ⟨a, w.toNat, radius⟩)

def toJson : Setting α → Json α
  | .disabled => .natural 0
  | .width w => .natural w
  | .withRadius w radius => .array [.natural w, .ofReal radius]

def readWidth (key : String) (v : Json α) : Except (ConfigFault α) Width :=
  match v.natural? with
  | some w => .ok w
  | none => .error (.inKey key (.notWidth v))

def ofJson (key : String) (v : Json α) : Except (ConfigFault α) (Setting α) :=
  match v with
  | .natural _ | .negative _ | .real _ => (readWidth key v).map ofWidth
  | .array [first, second] => do
    let w ← readWidth key first
    match second.number? with
    | some r => .ok (.withRadius w r)
    | none => .error (.inKey key .radiusNotNumber)
  | .array items => .error (.inKey key (.notPair items.length))
  | _ => .error (.inKey key (.notSetting v))

end Setting

end CalendarCode
