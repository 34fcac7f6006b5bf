import CalendarCode.Aspect.CustomDays
import CalendarCode.Proofs.Calendar.DayNames
import CalendarCode.Proofs.Calendar.Spelling

/-!
This module contains how the names of days are told from the names of aspects. The first three
letters of a text that names days are those of a day, and no name of an aspect begins like a day.
-/

namespace CalendarCode

namespace Text

def stem (cs : List Char) : List Char :=
  ((trimLeft cs).map Char.toLower).take 3

theorem stem_of_trim {cs : List Char} (h : 3 ≤ ((trim cs).map Char.toLower).length) :
    stem cs = ((trim cs).map Char.toLower).take 3 ∧ 3 ≤ (trimLeft cs).length := by
  obtain ⟨blanks, hblanks⟩ := exists_trim_append cs
  unfold stem
  rw [hblanks]
  rw [List.map_append]
  rw [List.take_append_of_le_length h]
  rw [List.length_map] at h
  rw [List.length_append]
  exact ⟨rfl, by omega⟩

theorem stem_append {cs : List Char} (h : 3 ≤ (trimLeft cs).length) (rest : List Char) :
    stem (cs ++ rest) = stem cs := by
  have hne : trimLeft cs ≠ [] := List.ne_nil_of_length_pos (by omega)
  unfold stem
  rw [trimLeft_append_of_ne_nil hne]
  rw [List.map_append]
  rw [List.take_append_of_le_length (by rwa [List.length_map])]

end Text

namespace Weekday

def stem (d : Weekday) : List Char :=
  d.abbreviation.toList.map Char.toLower

theorem stem_eq_take {d : Weekday} {s : String} (h : s ∈ d.spellings) :
    d.stem = s.toList.take 3 ∧ 3 ≤ s.toList.length := by
  revert s
  cases d <;> decide

theorem stem_of_ofName? {name : String} {d : Weekday} (h : ofName? name = some d) :
    Text.stem name.toList = d.stem ∧ 3 ≤ (Text.trimLeft name.toList).length := by
  obtain ⟨s, hs, hfold⟩ := ofName?_eq_some_iff.mp h
  obtain ⟨hstem, hlength⟩ := stem_eq_take hs
  rw [← hfold] at hstem hlength
  unfold foldName at hstem hlength
  rw [hstem]
  exact Text.stem_of_trim hlength

end Weekday

theorem DaySet.exists_name_of_ofNames {names : List String} {days : DaySet}
    (h : ofNames names = .ok days) :
    ∃ name rest d, names = name :: rest ∧ Weekday.ofName? name = some d := by
  have hdays := exists_ofNames_iff.mp ⟨days, h⟩
  cases names with
  | nil => exact absurd rfl hdays.ne_nil
  | cons name rest =>
    obtain ⟨d, hd⟩ := hdays.spells name List.mem_cons_self
    exact ⟨name, rest, d, rfl, hd⟩

theorem DayNames.exists_label_append {names : DayNames} {name : String} {rest : List String}
    (h : names.toList = name :: rest) :
    ∃ behind, names.label.toList = name.toList ++ behind := by
  unfold label
  rw [h]
  cases rest with
  | nil =>
    refine ⟨[], ?_⟩
    rw [String.intercalate_singleton]
    rw [List.append_nil]
  | cons other rest =>
    rw [String.intercalate_cons_cons]
    rw [String.append_assoc]
    rw [String.toList_append]
    exact ⟨_, rfl⟩

theorem DayNames.stem_label {names : DayNames} {days : DaySet}
    (h : DaySet.ofNames names.toList = .ok days) :
    ∃ d : Weekday, Text.stem names.label.toList = d.stem := by
  obtain ⟨name, rest, d, hnames, hd⟩ := DaySet.exists_name_of_ofNames h
  obtain ⟨behind, hlabel⟩ := exists_label_append hnames
  obtain ⟨hstem, hlength⟩ := Weekday.stem_of_ofName? hd
  refine ⟨d, ?_⟩
  rw [hlabel]
  rw [Text.stem_append hlength]
  exact hstem

namespace Aspect

theorem name_inj {a b : Aspect} : a.name = b.name ↔ a = b := by
  cases a <;> cases b <;> decide

theorem stem_name_ne (a : Aspect) (d : Weekday) : Text.stem a.name.toList ≠ d.stem := by
  cases a <;> cases d <;> decide

/-- Names of days, however they are spelled, do not join into the name of an aspect. -/
theorem label_ne_name {names : DayNames} {days : DaySet}
    (h : DaySet.ofNames names.toList = .ok days) (a : Aspect) : names.label ≠ a.name := by
  obtain ⟨d, hd⟩ := DayNames.stem_label h
  intro heq
  rw [heq] at hd
  exact a.stem_name_ne d hd

end Aspect

end CalendarCode
