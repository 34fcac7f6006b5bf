import CalendarCode.Calendar.DaySet
import CalendarCode.Proofs.Except

/-!
This module contains which sets of days names make up. Every name of a list has to spell a day, and
then the set has just the days that are spelled.
-/

namespace CalendarCode.DaySet

structure AreDays (names : List String) : Prop where
  ne_nil : names ≠ []
  spells : ∀ name ∈ names, ∃ d, Weekday.ofName? name = some d

def Names (names : List String) (d : Weekday) : Prop :=
  ∃ name ∈ names, Weekday.ofName? name = some d

instance (names : List String) (d : Weekday) : Decidable (Names names d) :=
  inferInstanceAs (Decidable (∃ name ∈ names, Weekday.ofName? name = some d))

theorem names_cons {name : String} {names : List String} {d e : Weekday}
    (h : Weekday.ofName? name = some d) : Names (name :: names) e ↔ d = e ∨ Names names e := by
  simp [Names, h]

theorem insertName_of_ofName? {name : String} {d : Weekday} (h : Weekday.ofName? name = some d)
    (s : DaySet) : ofNames.insertName s name = .ok (s.insert d) := by
  simp [ofNames.insertName, h]

theorem insertName_eq_error_iff {s : DaySet} {name : String} {fault : DayFault} :
    ofNames.insertName s name = .error fault
      ↔ Weekday.ofName? name = none ∧ fault = .unknown name := by
  cases hd : Weekday.ofName? name with
  | none => simp [ofNames.insertName, hd, eq_comm]
  | some d => simp [ofNames.insertName, hd]

theorem insertName_error_congr (s t : DaySet) (name : String) (fault : DayFault) :
    ofNames.insertName s name = .error fault ↔ ofNames.insertName t name = .error fault := by
  rw [insertName_eq_error_iff]
  rw [insertName_eq_error_iff]

theorem exists_insertName_iff {s : DaySet} {name : String} :
    (∃ t, ofNames.insertName s name = .ok t) ↔ ∃ d, Weekday.ofName? name = some d := by
  cases hd : Weekday.ofName? name with
  | none => simp [ofNames.insertName, hd]
  | some d => simp [ofNames.insertName, hd]

theorem contains_foldlM_insertName {names : List String} {s t : DaySet}
    (h : names.foldlM ofNames.insertName s = .ok t) (d : Weekday) :
    t.contains d = true ↔ s.contains d = true ∨ Names names d := by
  induction names generalizing s with
  | nil =>
    cases h
    simp [Names]
  | cons name names ih =>
    rw [List.foldlM_cons] at h
    cases he : Weekday.ofName? name with
    | none => simp [ofNames.insertName, he, bind, Except.bind] at h
    | some e =>
      rw [insertName_of_ofName? he] at h
      rw [ok_bind] at h
      rw [ih h]
      rw [names_cons he]
      rw [contains_insert]
      rw [Bool.or_eq_true]
      rw [decide_eq_true_eq]
      rw [or_assoc]

theorem ofNames_of_ne_nil {names : List String} (h : names ≠ []) :
    ofNames names = names.foldlM ofNames.insertName empty := by
  unfold ofNames
  rw [if_neg (by rwa [List.isEmpty_iff])]

theorem exists_ofNames_iff {names : List String} :
    (∃ days, ofNames names = .ok days) ↔ AreDays names := by
  by_cases hnil : names = []
  . subst hnil
    constructor
    . nofun
    . intro h
      exact absurd rfl h.ne_nil
  . rw [ofNames_of_ne_nil hnil]
    rw [exists_foldlM_eq_ok_iff fun s => insertName_error_congr s empty]
    simp only [exists_insertName_iff]
    constructor
    . intro h
      exact ⟨hnil, h⟩
    . intro h
      exact h.spells

theorem contains_of_ofNames {names : List String} {days : DaySet} (h : ofNames names = .ok days)
    (d : Weekday) : days.contains d = true ↔ Names names d := by
  rw [ofNames_of_ne_nil (exists_ofNames_iff.mp ⟨days, h⟩).ne_nil] at h
  rw [contains_foldlM_insertName h]
  simp

end CalendarCode.DaySet
