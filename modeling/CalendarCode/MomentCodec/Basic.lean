import CalendarCode.Code.Basic
import CalendarCode.Config.Json
import CalendarCode.Layout

/-!
This module contains codecs of moments and how they come out of a configuration: one scalar codec
for each aspect that is enabled, side by side in the order of the aspects.
-/

namespace CalendarCode

structure MomentCodec (α : Type) [Arith α] where
  config : Config α
  layout : Layout α
  days : Option DaySet

namespace MomentCodec

variable {α : Type} [Arith α]

structure Part (α : Type) [Arith α] where
  aspect : Aspect
  codec : ScalarCodec α
  days : Option DaySet

def codecOf (plan : Plan α) (label : String) : Except (ConfigFault α) (ScalarCodec α) :=
  (ScalarCodec.build (plan.scalarConfig label)).mapError (.inKey plan.aspect.key)

def part? (c : Config α) (a : Aspect) : Except (ConfigFault α) (Option (Part α)) :=
  if a = .customDays then do
    match ← c.customDays.plan with
    | some p => return some ⟨a, ← codecOf p.plan p.label, some p.days⟩
    | none => return none
  else do
    match ← (c.setting a).plan a with
    | some p => return some ⟨a, ← codecOf p a.name, none⟩
    | none => return none

def ofParts (c : Config α) (parts : List (Part α)) : MomentCodec α where
  config := c
  layout := parts.foldl (fun l p => l.push p.aspect p.aspect.name p.codec) .empty
  days := parts.findSome? (·.days)

def build (c : Config α) : Except (ConfigFault α) (MomentCodec α) := do
  let parts ← Aspect.all.mapM (part? c)
  return ofParts c (parts.filterMap id)

def ofText [Numeral α] (text : String) : Except (Error α) (MomentCodec α) := do
  let c ← Config.ofText text
  (build c).mapError .config

variable (k : MomentCodec α)

def name : String :=
  k.config.name

def size : Nat :=
  k.layout.size

def fields : List (Field α) :=
  k.layout.fields

def description : List (String × Nat) :=
  k.fields.map fun f => (f.name, f.offset)

def fieldDescription? [Numeral α] (name : String) : Option (Nat × Nat) :=
  (k.layout.find? name).map fun f => (f.offset, f.size)

/-- A name behind another one, with a point between them unless the other one is empty. -/
def qualify (qualifier name : String) : String :=
  if qualifier.isEmpty then name else s!"{qualifier}.{name}"

def scalarNames [Numeral α] (qualifier : String) : List String :=
  k.fields.map fun f => qualify qualifier f.codec.displayName

def slice (f : Field α) (code : Code) : Code :=
  code.slice f.offset f.size

def sized {β : Type} (code : Code) (result : Except (Error α) β) : Except (Error α) β :=
  if code.size = k.size then result else .error (.size k.size code.size)

end MomentCodec

end CalendarCode
