import CalendarCode.Aspect.CustomDays

/-!
This module contains configurations: a setting for each aspect, and a name.
-/

namespace CalendarCode

structure Config (α : Type) where
  season : Setting α := .disabled
  dayOfWeek : Setting α := .disabled
  weekend : Setting α := .disabled
  customDays : CustomDays := .disabled
  holiday : Setting α := .disabled
  timeOfDay : Setting α := .disabled
  /-- What stands in front of the names of decoded fields; nothing if it is empty. -/
  name : String := ""

namespace Config

variable {α : Type}

def setting (c : Config α) : Aspect → Setting α
  | .season => c.season
  | .dayOfWeek => c.dayOfWeek
  | .weekend => c.weekend
  | .customDays => .disabled
  | .holiday => c.holiday
  | .timeOfDay => c.timeOfDay

def withSetting (c : Config α) (a : Aspect) (s : Setting α) : Config α :=
  match a with
  | .season => { c with season := s }
  | .dayOfWeek => { c with dayOfWeek := s }
  | .weekend => { c with weekend := s }
  | .customDays => c
  | .holiday => { c with holiday := s }
  | .timeOfDay => { c with timeOfDay := s }

def isEnabled (c : Config α) (a : Aspect) : Bool :=
  if a = .customDays then c.customDays.isEnabled else (c.setting a).isEnabled

end Config

end CalendarCode
