import CalendarCode.Error
import CalendarCode.Proofs.Calendar.DayNames
import CalendarCode.Proofs.Calendar.Spelling

/-!
This module contains what reading names of days comes to. All that matters is which days are named:
not the order of the names, nor how often a day is named or how it is spelled. The members, the
indices, the number of members and the text of the set all tell the same days.
-/

namespace CalendarCode.DaySet

variable {s t : DaySet} {names : List String}

theorem eq_of_contains (h : ∀ d, s.contains d = t.contains d) : s = t := by
  obtain ⟨mask⟩ := s
  obtain ⟨mask'⟩ := t
  congr 1
  apply BitVec.eq_of_getLsbD_eq
  intro i hi
  have hindex : (Weekday.ofIndex i).index = i := by
    revert i
    decide
  rw [← hindex]
  exact h (Weekday.ofIndex i)

theorem indices_eq (s : DaySet) : s.indices = s.members.map Weekday.index := by
  have hall : List.range 7 = Weekday.all.map Weekday.index := by decide
  unfold indices members
  rw [hall]
  rw [List.filter_map]
  rfl

theorem mem_indices {i : Nat} : i ∈ s.indices ↔ ∃ d, s.contains d = true ∧ d.index = i := by
  rw [indices_eq]
  rw [List.mem_map]
  simp only [mem_members]

theorem pairwise_indices (s : DaySet) : s.indices.Pairwise (· < ·) :=
  List.pairwise_lt_range.filter _

theorem length_indices (s : DaySet) : s.indices.length = s.size :=
  List.countP_eq_length_filter.symm

theorem names_iff {d : Weekday} : Names names d ↔ ∃ name ∈ names, Weekday.Spells name d := by
  unfold Names
  simp only [Weekday.ofName?_eq_some_iff]

theorem ofNames_eq_ok_iff : ofNames names = .ok s ↔
    AreDays names ∧ ∀ d, s.contains d = true ↔ Names names d := by
  constructor
  . intro h
    exact ⟨exists_ofNames_iff.mp ⟨s, h⟩, contains_of_ofNames h⟩
  . rintro ⟨hdays, hcontains⟩
    obtain ⟨t, ht⟩ := exists_ofNames_iff.mpr hdays
    rw [ht]
    congr 1
    apply eq_of_contains
    intro d
    apply Bool.eq_iff_iff.mpr
    rw [hcontains d]
    exact contains_of_ofNames ht d

theorem ofNames_eq_error_iff (hne : names ≠ []) {fault : DayFault} :
    ofNames names = .error fault ↔ ∃ front name rest, names = front ++ name :: rest ∧
      (∀ name' ∈ front, ∃ d, Weekday.Spells name' d) ∧ (¬∃ d, Weekday.Spells name d) ∧
        fault = .unknown name := by
  rw [ofNames_of_ne_nil hne]
  rw [foldlM_eq_error_iff fun s => insertName_error_congr s empty]
  rw [mapM_eq_error_iff]
  simp only [exists_insertName_iff, insertName_eq_error_iff, Weekday.ofName?_eq_some_iff,
    Weekday.ofName?_eq_none_iff]

/-- Whether two lists hold the same names, whatever their order, their number and their spelling. -/
structure Rewrites (names names' : List String) : Prop where
  forth : ∀ name ∈ names, ∃ name' ∈ names', Weekday.Respells name name'
  back : ∀ name' ∈ names', ∃ name ∈ names, Weekday.Respells name name'

theorem Rewrites.areDays {names' : List String} (h : Rewrites names names')
    (hdays : AreDays names) : AreDays names' where
  ne_nil := by
    obtain ⟨name, hname⟩ := List.exists_mem_of_ne_nil names hdays.ne_nil
    obtain ⟨name', hname', -⟩ := h.forth name hname
    exact List.ne_nil_of_mem hname'
  spells := by
    intro name' hname'
    obtain ⟨name, hname, hrespells⟩ := h.back name' hname'
    rw [← Weekday.ofName?_congr hrespells]
    exact hdays.spells name hname

theorem Rewrites.names_iff {names' : List String} (h : Rewrites names names') (d : Weekday) :
    Names names d ↔ Names names' d := by
  constructor
  . rintro ⟨name, hname, hd⟩
    obtain ⟨name', hname', hrespells⟩ := h.forth name hname
    rw [Weekday.ofName?_congr hrespells] at hd
    exact ⟨name', hname', hd⟩
  . rintro ⟨name', hname', hd⟩
    obtain ⟨name, hname, hrespells⟩ := h.back name' hname'
    rw [← Weekday.ofName?_congr hrespells] at hd
    exact ⟨name, hname, hd⟩

theorem ofNames_of_rewrites {names' : List String} (h : Rewrites names names')
    (hs : ofNames names = .ok s) : ofNames names' = .ok s := by
  rw [ofNames_eq_ok_iff] at hs ⊢
  refine ⟨h.areDays hs.1, ?_⟩
  intro d
  rw [← h.names_iff]
  exact hs.2 d

theorem rewrites_of_perm {names' : List String} (h : names.Perm names') :
    Rewrites names names' where
  forth name hname := ⟨name, h.mem_iff.mp hname, .refl name⟩
  back name hname := ⟨name, h.mem_iff.mpr hname, .refl name⟩

def words (text : String) : List String :=
  (text.split ' ').toList.map fun word => word.copy

theorem words_text (h : s.members ≠ []) : words s.text = s.members.map Weekday.abbreviation := by
  have hblank : ∀ name ∈ s.members.map Weekday.abbreviation, ' ' ∉ name.toList := by
    intro name hname
    obtain ⟨d, -, rfl⟩ := List.mem_map.mp hname
    cases d <;> decide
  have hsplit := String.toList_split_intercalate hblank
  rw [if_neg (by simpa using h)] at hsplit
  exact hsplit

theorem ofNames_members (h : s.members ≠ []) :
    ofNames (s.members.map Weekday.abbreviation) = .ok s := by
  rw [ofNames_eq_ok_iff]
  constructor
  . constructor
    . simpa using h
    . intro name hname
      obtain ⟨d, -, rfl⟩ := List.mem_map.mp hname
      exact ⟨d, Weekday.ofName?_abbreviation d⟩
  . intro d
    unfold Names
    rw [← mem_members]
    simp [Weekday.ofName?_abbreviation]

theorem members_ne_nil (h : ofNames names = .ok s) : s.members ≠ [] := by
  obtain ⟨hdays, hcontains⟩ := ofNames_eq_ok_iff.mp h
  obtain ⟨name, hname⟩ := List.exists_mem_of_ne_nil names hdays.ne_nil
  obtain ⟨d, hd⟩ := hdays.spells name hname
  apply List.ne_nil_of_mem (a := d)
  rw [mem_members]
  rw [hcontains d]
  exact ⟨name, hname, hd⟩

/-- Whether a set holds the days that are named, whichever way it is looked at. -/
structure Holds (s : DaySet) (names : List String) : Prop where
  contains_iff : ∀ d, s.contains d = true ↔ ∃ name ∈ names, Weekday.Spells name d
  perm : ∀ names', names.Perm names' → ofNames names' = .ok s
  rewrites : ∀ names', Rewrites names names' → ofNames names' = .ok s
  ascending : s.indices.Pairwise (· < ·)
  mem_indices : ∀ i, i ∈ s.indices ↔ ∃ d, s.contains d = true ∧ d.index = i
  length : s.indices.length = s.size
  text : ofNames (words s.text) = .ok s

theorem holds_of_ofNames (h : ofNames names = .ok s) : s.Holds names where
  contains_iff d := by
    rw [contains_of_ofNames h]
    exact names_iff
  perm names' hperm := ofNames_of_rewrites (rewrites_of_perm hperm) h
  rewrites names' hnames := ofNames_of_rewrites hnames h
  ascending := s.pairwise_indices
  mem_indices _ := mem_indices
  length := s.length_indices
  text := by
    have hne := members_ne_nil h
    rw [words_text hne]
    exact ofNames_members hne

/--
Names are read as a set if there are some and all of them spell days. The set holds just these days,
and otherwise the configuration is at fault because of the first name that spells none.
-/
theorem ofNames_holds {α : Type} (names : List String) :
    ((∃ s, ofNames names = .ok s) ↔
      names ≠ [] ∧ ∀ name ∈ names, ∃ d, Weekday.Spells name d) ∧
    (∀ s, ofNames names = .ok s → s.Holds names) ∧
    (names ≠ [] → ∀ fault : ConfigFault α, (ofNames names).mapError .days = .error fault ↔
      ∃ front name rest, names = front ++ name :: rest ∧
        (∀ name' ∈ front, ∃ d, Weekday.Spells name' d) ∧ (¬∃ d, Weekday.Spells name d) ∧
          fault = .days (.unknown name)) := by
  refine ⟨?_, fun _ => holds_of_ofNames, ?_⟩
  . rw [exists_ofNames_iff]
    simp only [← Weekday.ofName?_eq_some_iff]
    constructor
    . intro h
      exact ⟨h.ne_nil, h.spells⟩
    . rintro ⟨hne, hspells⟩
      exact ⟨hne, hspells⟩
  . intro hne fault
    rw [mapError_eq_error_iff]
    constructor
    . rintro ⟨cause, hcause, rfl⟩
      obtain ⟨front, name, rest, hnames, hfront, hname, rfl⟩ := (ofNames_eq_error_iff hne).mp hcause
      exact ⟨front, name, rest, hnames, hfront, hname, rfl⟩
    . rintro ⟨front, name, rest, hnames, hfront, hname, rfl⟩
      exact ⟨_, (ofNames_eq_error_iff hne).mpr ⟨front, name, rest, hnames, hfront, hname, rfl⟩, rfl⟩

theorem ofNames_holds_sunday :
    (∃ s, ofNames ["sat", "Sunday"] = .ok s ∧ s.Holds ["sat", "Sunday"] ∧
      ofNames ["\tSUN ", "sat", "Sunday"] = .ok s) ∧
    (ofNames ["mon", "Funday", "xyz"]).mapError .days
      = .error (.days (.unknown "Funday") : ConfigFault Rat) := by
  have hlower : Weekday.Respells "Sunday" "sunday" := .recased (by decide)
  have hlong : "sunday" ∈ Weekday.sunday.spellings := by decide
  have hshort : "sun" ∈ Weekday.sunday.spellings := by decide
  have hupper : Weekday.Respells "sun" "SUN" := .recased (by decide)
  have hbefore : ∀ c ∈ ['\t'], Text.isBlank c = true := List.forall_mem_singleton.mpr (by decide)
  have hafter : ∀ c ∈ [' '], Text.isBlank c = true := List.forall_mem_singleton.mpr (by decide)
  have hsun : Weekday.Respells "Sunday" "\tSUN " := by
    apply hlower.trans
    apply (Weekday.Respells.abbreviated hlong hshort).trans
    apply hupper.trans
    exact .padded hbefore hafter (by decide)
  have hrewrites : Rewrites ["sat", "Sunday"] ["\tSUN ", "sat", "Sunday"] := by
    constructor
    . intro name hname
      exact ⟨name, List.mem_cons_of_mem _ hname, .refl name⟩
    . intro name' hname'
      rcases List.mem_cons.mp hname' with rfl | hname'
      . exact ⟨"Sunday", by decide, hsun⟩
      . exact ⟨name', hname', .refl name'⟩
  have hspells : ∀ name ∈ ["sat", "Sunday"], ∃ d, Weekday.Spells name d := by
    simp only [← Weekday.ofName?_eq_some_iff, List.forall_mem_cons]
    exact ⟨⟨.saturday, by decide⟩, ⟨.sunday, by decide⟩, nofun⟩
  obtain ⟨s, hs⟩ := (ofNames_holds (α := Rat) _).1.mpr ⟨by decide, hspells⟩
  have hholds := (ofNames_holds (α := Rat) _).2.1 s hs
  refine ⟨⟨s, hs, hholds, hholds.rewrites _ hrewrites⟩, ?_⟩
  rw [(ofNames_holds _).2.2 (by decide)]
  refine ⟨["mon"], "Funday", ["xyz"], rfl, ?_, ?_, rfl⟩
  . simp only [← Weekday.ofName?_eq_some_iff, List.forall_mem_cons]
    exact ⟨⟨.monday, by decide⟩, nofun⟩
  . rw [← Weekday.ofName?_eq_none_iff]
    decide

end CalendarCode.DaySet
