import CalendarCode.Calendar.Weekday
import CalendarCode.Proofs.Text.Trim

/-!
This module contains which names spell a day: those that come down to one of the spellings of the
day. Upper case, white space around the name, and the choice between the long and the short spelling
make no difference to the day.
-/

namespace CalendarCode.Weekday

def Spells (name : String) (d : Weekday) : Prop :=
  ∃ s ∈ d.spellings, foldName name = s.toList

theorem ofName?_of_foldName {name name' : String} (h : foldName name = foldName name') :
    ofName? name = ofName? name' := by
  unfold ofName?
  rw [h]

theorem ofName?_of_mem_spellings {d : Weekday} {s : String} (h : s ∈ d.spellings) :
    foldName s = s.toList ∧ ofName? s = some d := by
  revert s
  cases d <;> decide

theorem ofName?_abbreviation (d : Weekday) : ofName? d.abbreviation = some d := by
  cases d <;> decide

theorem ofName?_eq_some_iff {name : String} {d : Weekday} :
    ofName? name = some d ↔ Spells name d := by
  constructor
  . intro h
    have hany := List.find?_some h
    rw [List.any_eq_true] at hany
    obtain ⟨s, hs, hfold⟩ := hany
    rw [beq_iff_eq] at hfold
    exact ⟨s, hs, hfold.symm⟩
  . rintro ⟨s, hs, hfold⟩
    obtain ⟨hself, hname⟩ := ofName?_of_mem_spellings hs
    rw [ofName?_of_foldName (hfold.trans hself.symm)]
    exact hname

theorem ofName?_eq_none_iff {name : String} :
    ofName? name = none ↔ ¬∃ d, Spells name d := by
  rw [← not_iff_not]
  rw [not_not]
  rw [← ne_eq]
  rw [Option.ne_none_iff_exists']
  simp only [ofName?_eq_some_iff]

/-- Whether a name comes from another one by changes that leave the day as it is. -/
inductive Respells : String → String → Prop where
  | recased {name name' : String} :
    name.toList.map Char.toLower = name'.toList.map Char.toLower → Respells name name'
  | padded {name name' : String} {before after : List Char} :
    (∀ c ∈ before, Text.isBlank c = true) → (∀ c ∈ after, Text.isBlank c = true) →
      name'.toList = before ++ name.toList ++ after → Respells name name'
  | abbreviated {d : Weekday} {name name' : String} :
    name ∈ d.spellings → name' ∈ d.spellings → Respells name name'
  | symm {name name' : String} : Respells name name' → Respells name' name
  | trans {name name' name'' : String} :
    Respells name name' → Respells name' name'' → Respells name name''

theorem Respells.refl (name : String) : Respells name name :=
  .recased rfl

theorem foldName_eq_trim (name : String) :
    foldName name = Text.trim (name.toList.map Char.toLower) :=
  (Text.trim_map_toLower name.toList).symm

theorem ofName?_congr {name name' : String} (h : Respells name name') :
    ofName? name = ofName? name' := by
  induction h with
  | recased hcase =>
    apply ofName?_of_foldName
    rw [foldName_eq_trim]
    rw [foldName_eq_trim]
    rw [hcase]
  | padded hbefore hafter hname =>
    apply ofName?_of_foldName
    unfold foldName
    rw [hname]
    rw [Text.trim_append hbefore _ hafter]
  | abbreviated hname hname' =>
    rw [(ofName?_of_mem_spellings hname).2]
    rw [(ofName?_of_mem_spellings hname').2]
  | symm _ ih => exact ih.symm
  | trans _ _ ih ih' => exact ih.trans ih'

end CalendarCode.Weekday
