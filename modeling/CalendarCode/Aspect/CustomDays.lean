import CalendarCode.Aspect.Setting

/-!
This module contains the setting of the custom days: a width together with the names of the days. In
JSON it is zero, or a pair of a width and one name or a list of names.
-/

namespace CalendarCode

inductive DayNames where
  | one (name : String)
  | many (names : List String)
  deriving DecidableEq

namespace DayNames

def toList : DayNames → List String
  | .one name => [name]
  | .many names => names

def label (d : DayNames) : String :=
  " ".intercalate d.toList

def toJson {α : Type} : DayNames → Json α
  | .one name => .string name
  | .many names => .strings names

def ofJson? {α : Type} : Json α → Option DayNames
  | .string name => some (.one name)
  | .array items => (items.mapM Json.string?).map .many
  | _ => none

end DayNames

inductive CustomDays where
  | disabled
  | enabled (width : Width) (names : DayNames)
  deriving DecidableEq

structure DayPlan (α : Type) where
  plan : Plan α
  days : DaySet
  label : String

namespace CustomDays

def isEnabled : CustomDays → Bool
  | .disabled => false
  | .enabled _ _ => true

variable {α : Type} [Arith α]

def plan : CustomDays → Except (ConfigFault α) (Option (DayPlan α))
  | .disabled => .ok none
  | .enabled width names =>
    if width = 0 then .error (.inKey Aspect.customDays.key .zeroWidth)
    else
      match DaySet.ofNames names.toList with
      | .ok days =>
        .ok (some ⟨⟨.customDays, width.toNat, Aspect.customDays.defaultRadius⟩, days, names.label⟩)
      | .error fault => .error (.days fault)

def toJson : CustomDays → Json α
  | .disabled => .natural 0
  | .enabled width names => .array [.natural width, names.toJson]

def ofJson (v : Json α) : Except (ConfigFault α) CustomDays :=
  match v with
  | .natural 0 => .ok .disabled
  | .array [width, days] => do
    let w ← Setting.readWidth Aspect.customDays.key width
    match DayNames.ofJson? days with
    | some names => .ok (.enabled w names)
    | none => malformed
  | _ => malformed
where
  malformed : Except (ConfigFault α) CustomDays :=
    .error (.inKey Aspect.customDays.key (.notDays v))

end CustomDays

end CalendarCode
