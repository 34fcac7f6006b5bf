import CalendarCode.Config.Json
import CalendarCode.Proofs.Except

/-!
This module contains the way of configurations through JSON and back. Each field of an object
decides about its own part of the configuration, so that the order of the fields does not matter. A
setting comes back as it was, but a bare width of zero is read as a disabled aspect.
-/

namespace CalendarCode

variable {α : Type}

namespace Json

theorem insertField_perm {key : String} {fields : List (String × Json α)}
    (h : key ∉ fields.map (·.1)) (v : Json α) :
    (insertField key v fields).Perm ((key, v) :: fields) := by
  induction fields with
  | nil => exact .refl _
  | cons field fields ih =>
    obtain ⟨k, u⟩ := field
    rw [List.map_cons] at h
    rw [List.mem_cons] at h
    rw [not_or] at h
    unfold insertField
    split
    . exact .refl _
    . rw [if_neg h.1]
      exact ((ih h.2).cons _).trans (.swap _ _ _)

theorem foldl_insertField_perm {fields sorted : List (String × Json α)}
    (h : ((sorted ++ fields).map (·.1)).Nodup) :
    (fields.foldl (fun sorted (key, v) => insertField key v sorted) sorted).Perm
      (sorted ++ fields) := by
  induction fields generalizing sorted with
  | nil =>
    rw [List.append_nil]
    exact .refl _
  | cons field fields ih =>
    obtain ⟨key, v⟩ := field
    rw [List.foldl_cons]
    have hmiddle : (sorted ++ (key, v) :: fields).Perm ((key, v) :: (sorted ++ fields)) :=
      List.perm_middle
    have hkey := (hmiddle.map (·.1)).nodup_iff.mp h
    rw [List.map_cons] at hkey
    rw [List.nodup_cons] at hkey
    rw [List.map_append] at hkey
    have hinsert := insertField_perm (fun hmem => hkey.1 (List.mem_append_left _ hmem)) v
    have hperm := (hinsert.append_right fields).trans hmiddle.symm
    exact (ih ((hperm.map (·.1)).nodup_iff.mpr h)).trans hperm

end Json

namespace Setting

/-- The setting with a bare width of zero taken for what it means. -/
def withoutZero : Setting α → Setting α
  | .width w => if w = 0 then .disabled else .width w
  | s => s

variable [Arith α]

def HasFiniteRadius : Setting α → Prop
  | .withRadius _ radius => Arith.isFinite radius = true
  | _ => True

theorem ofJson_toJson {s : Setting α} (h : s.HasFiniteRadius) (key : String) :
    ofJson key s.toJson = .ok s.withoutZero := by
  cases s with
  | disabled => rfl
  | width w => rfl
  | withRadius w radius =>
    have hreal : Json.ofReal radius = .real radius := if_pos h
    simp only [toJson, hreal]
    rfl

theorem plan_withoutZero (s : Setting α) (a : Aspect) : s.withoutZero.plan a = s.plan a := by
  cases s with
  | disabled => rfl
  | width w =>
    by_cases hw : w = 0
    . simp [withoutZero, plan, hw]
    . simp [withoutZero, plan, hw]
  | withRadius w radius => rfl

end Setting

theorem DayNames.ofJson?_toJson (d : DayNames) : ofJson? (d.toJson : Json α) = some d := by
  cases d with
  | one name => rfl
  | many names =>
    have hnames : (names.map Json.string).mapM (Json.string? (α := α)) = some names := by
      induction names with
      | nil => rfl
      | cons name names ih =>
        rw [List.map_cons]
        rw [List.mapM_cons]
        rw [ih]
        rfl
    simp only [toJson, Json.strings, ofJson?, hnames]
    rfl

theorem CustomDays.ofJson_toJson [Arith α] (d : CustomDays) :
    ofJson (d.toJson : Json α) = .ok d := by
  cases d with
  | disabled => rfl
  | enabled width names =>
    simp only [toJson, ofJson, Setting.readWidth, Json.natural?, DayNames.ofJson?_toJson]
    rfl

namespace Config

def withoutZeros (c : Config α) : Config α where
  season := c.season.withoutZero
  dayOfWeek := c.dayOfWeek.withoutZero
  weekend := c.weekend.withoutZero
  customDays := c.customDays
  holiday := c.holiday.withoutZero
  timeOfDay := c.timeOfDay.withoutZero
  name := c.name

theorem setting_withoutZeros (c : Config α) (a : Aspect) :
    c.withoutZeros.setting a = (c.setting a).withoutZero := by
  cases a <;> rfl

def taking (c d : Config α) (keys : List String) : Config α where
  season := if "season" ∈ keys then d.season else c.season
  dayOfWeek := if "dayOfWeek" ∈ keys then d.dayOfWeek else c.dayOfWeek
  weekend := if "weekend" ∈ keys then d.weekend else c.weekend
  customDays := if "customDays" ∈ keys then d.customDays else c.customDays
  holiday := if "holiday" ∈ keys then d.holiday else c.holiday
  timeOfDay := if "timeOfDay" ∈ keys then d.timeOfDay else c.timeOfDay
  name := if "name" ∈ keys then d.name else c.name

theorem taking_nil (c d : Config α) : c.taking d [] = c := by
  simp [taking]

theorem taking_taking (c d : Config α) (keys more : List String) :
    (c.taking d keys).taking d more = c.taking d (keys ++ more) := by
  simp only [taking, List.mem_append, mk.injEq]
  refine ⟨?_, ?_, ?_, ?_, ?_, ?_, ?_⟩
  all_goals grind

variable [Arith α]

theorem readField_eq_taking {d : Config α} {field : String × Json α}
    (h : readField d field = .ok d) (c : Config α) :
    readField c field = .ok (c.taking d [field.1]) := by
  obtain ⟨key, v⟩ := field
  unfold readField at h ⊢
  simp only at h ⊢
  split at h
  case h_7 =>
    split at h
    . rw [← Except.ok.inj h]
      simp [taking]
    . contradiction
  case h_8 => contradiction
  all_goals
    rw [map_eq_ok_iff] at h
    obtain ⟨s, hs, hd⟩ := h
    rw [hs]
    rw [← hd]
    simp [taking, Except.map]

theorem foldlM_readField {d : Config α} {fields : List (String × Json α)}
    (h : ∀ field ∈ fields, readField d field = .ok d) (c : Config α) :
    fields.foldlM readField c = .ok (c.taking d (fields.map (·.1))) := by
  induction fields generalizing c with
  | nil =>
    rw [List.map_nil]
    rw [taking_nil]
    rfl
  | cons field fields ih =>
    have hkeys : c.taking d ((field :: fields).map (·.1))
        = (c.taking d [field.1]).taking d (fields.map (·.1)) := by
      rw [taking_taking]
      rfl
    rw [List.foldlM_cons]
    rw [readField_eq_taking (h field List.mem_cons_self)]
    rw [hkeys]
    exact ih (fun f hf => h f (List.mem_cons_of_mem field hf)) _

def jsonFields (c : Config α) : List (String × Json α) :=
  [("season", c.season.toJson), ("dayOfWeek", c.dayOfWeek.toJson), ("weekend", c.weekend.toJson),
    ("customDays", c.customDays.toJson), ("holiday", c.holiday.toJson),
    ("timeOfDay", c.timeOfDay.toJson)]
    ++ if c.name.isEmpty then [] else [("name", .string c.name)]

theorem toJson_eq (c : Config α) : c.toJson = .object c.jsonFields := rfl

def HasFiniteRadii (c : Config α) : Prop :=
  ∀ a, (c.setting a).HasFiniteRadius

theorem readField_of_setting {d : Config α} {a : Aspect} {v : Json α} (ha : a ≠ .customDays)
    (h : Setting.ofJson a.key v = .ok (d.setting a)) : readField d (a.key, v) = .ok d := by
  cases a
  case customDays => contradiction
  all_goals
    simp only [Aspect.key, readField] at h ⊢
    rw [h]
    rfl

theorem readField_jsonFields {c : Config α} (h : c.HasFiniteRadii) {field : String × Json α}
    (hfield : field ∈ c.jsonFields) : readField c.withoutZeros field = .ok c.withoutZeros := by
  have hsetting (a : Aspect) (ha : a ≠ .customDays) :
      readField c.withoutZeros (a.key, (c.setting a).toJson) = .ok c.withoutZeros := by
    apply readField_of_setting ha
    rw [setting_withoutZeros]
    exact Setting.ofJson_toJson (h a) a.key
  unfold jsonFields at hfield
  simp only [List.mem_append, List.mem_cons, List.not_mem_nil, or_false] at hfield
  rcases hfield with (rfl | rfl | rfl | rfl | rfl | rfl) | hname
  . exact hsetting .season nofun
  . exact hsetting .dayOfWeek nofun
  . exact hsetting .weekend nofun
  . simp only [readField]
    rw [CustomDays.ofJson_toJson]
    rfl
  . exact hsetting .holiday nofun
  . exact hsetting .timeOfDay nofun
  . split at hname
    . contradiction
    . rw [List.mem_singleton] at hname
      rw [hname]
      rfl

theorem taking_jsonFields (c : Config α) {keys : List String}
    (h : ∀ field ∈ c.jsonFields, field.1 ∈ keys) :
    taking {} c.withoutZeros keys = c.withoutZeros := by
  simp only [jsonFields, List.forall_mem_append, List.forall_mem_cons] at h
  obtain ⟨⟨hseason, hdayOfWeek, hweekend, hcustomDays, hholiday, htimeOfDay, -⟩, hname⟩ := h
  -- a name that is left out is the one that a configuration has without fields
  have hname : "name" ∈ keys ∨ c.name = "" := by
    by_cases hempty : c.name.isEmpty = true
    . right
      exact String.isEmpty_iff.mp hempty
    . left
      rw [if_neg hempty] at hname
      exact hname _ (List.mem_singleton_self _)
  simp only [taking, hseason, hdayOfWeek, hweekend, hcustomDays, hholiday, htimeOfDay]
  rcases hname with hname | hname
  . simp [hname]
  . simp [withoutZeros, hname]

theorem ofJson_of_perm {c : Config α} (h : c.HasFiniteRadii) {fields : List (String × Json α)}
    (hperm : fields.Perm c.jsonFields) : ofJson (.object fields) = .ok c.withoutZeros := by
  have hwrite : ∀ field ∈ fields, readField c.withoutZeros field = .ok c.withoutZeros := by
    intro field hfield
    exact readField_jsonFields h (hperm.mem_iff.mp hfield)
  simp only [ofJson]
  rw [foldlM_readField hwrite]
  rw [taking_jsonFields]
  intro field hfield
  exact List.mem_map_of_mem (hperm.mem_iff.mpr hfield)

theorem nodup_jsonFields (c : Config α) : (c.jsonFields.map (·.1)).Nodup := by
  unfold jsonFields
  split <;> simp

theorem ofJson_sortedObject {c : Config α} (h : c.HasFiniteRadii) :
    ofJson (.sortedObject c.jsonFields) = .ok c.withoutZeros :=
  ofJson_of_perm h (Json.foldl_insertField_perm c.nodup_jsonFields)

end Config

end CalendarCode
