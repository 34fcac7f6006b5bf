import CalendarCode.Aspect.Basic
import CalendarCode.Proofs.Arith
import Mathlib.Tactic.IntervalCases
import Mathlib.Tactic.NormNum

/-!
This module contains the bounds of the numbers by which moments are encoded. Each of them lies in
the domain of its aspect, and never at the upper end of a circle, also in a leap second.
-/

namespace CalendarCode

theorem daysInMonth_le (year : Int) (month : Nat) : daysInMonth year month ≤ 31 := by
  have hfebruary : (if isLeapYear year then 29 else 28) ≤ 31 := by
    split
    . omega
    . omega
  unfold daysInMonth
  split
  all_goals omega

namespace Date

theorem month_bounds (d : Date) : 1 ≤ d.month ∧ d.month ≤ 12 := by
  have hday := Nat.le_trans d.first_day d.last_day
  unfold daysInMonth at hday
  split at hday
  all_goals omega

theorem daysBeforeMonth_add_daysInMonth_le (year : Int) {month : Nat} (hfirst : 1 ≤ month)
    (hlast : month ≤ 12) : daysBeforeMonth year month + daysInMonth year month ≤ 366 := by
  have hfebruary : (if isLeapYear year then 29 else 28) ≤ 29 := by
    split
    . omega
    . omega
  unfold daysBeforeMonth
  interval_cases month <;> simp [List.range_succ, daysInMonth] <;> omega

theorem dayOfYear_lt (d : Date) : d.dayOfYear < 366 := by
  have hmonth := d.month_bounds
  have hyear := daysBeforeMonth_add_daysInMonth_le d.year hmonth.1 hmonth.2
  have hfirst := d.first_day
  have hlast := d.last_day
  unfold dayOfYear
  omega

theorem ofParts?_self (d : Date) : ofParts? d.year d.month d.day = some d :=
  dif_pos ⟨⟨d.first_year, d.last_year⟩, d.first_day, d.last_day⟩

end Date

theorem Clock.ofParts?_self {t : Clock} (h : 1000000000 ≤ t.nano → t.second = 59) :
    Clock.ofParts? t.hour t.minute t.second t.nano = some t := by
  have hnano := t.nano_lt
  exact dif_pos ⟨⟨t.hour_lt, t.minute_lt, t.second_lt⟩, by omega⟩

theorem Clock.secondOfDay_lt (t : Clock) : t.secondOfDay < 86400 := by
  have := t.hour_lt
  have := t.minute_lt
  have := t.second_lt
  unfold secondOfDay minuteOfDay
  omega

namespace Moment

theorem ofParts?_self (d : Date) {t : Clock} (h : 1000000000 ≤ t.nano → t.second = 59) :
    ofParts? d.year d.month d.day t.hour t.minute t.second t.nano = some ⟨d, t⟩ := by
  unfold ofParts?
  rw [d.ofParts?_self]
  rw [Clock.ofParts?_self h]
  rfl

theorem timeOfDay_eq (m : Moment) :
    (m.timeOfDay : Rat) = (m.clock.hour : Rat) + (m.clock.minute : Rat) / 60 := rfl

theorem timeOfDay_bounds (m : Moment) : (0 : Rat) ≤ m.timeOfDay ∧ (m.timeOfDay : Rat) < 24 := by
  have hhour : (m.clock.hour : Rat) + 1 ≤ 24 := by exact_mod_cast m.clock.hour_lt
  have hminute : (m.clock.minute : Rat) < 60 := by exact_mod_cast m.clock.minute_lt
  have hpos : (0 : Rat) ≤ m.clock.hour + m.clock.minute / 60 := by positivity
  rw [timeOfDay_eq]
  refine ⟨hpos, ?_⟩
  linarith

theorem elapsedSince_lt_of_not_isAfter {m : Moment} {d : Date} (h : m.isAfter d = false) :
    m.elapsedSince d < 1000000000 := by
  -- a leap second reaches into the next day, but not for a whole second
  have hsecond := m.clock.secondOfDay_lt
  have hnano := m.clock.nano_lt
  simp only [isAfter, Bool.or_eq_false_iff, Bool.and_eq_false_iff, decide_eq_false_iff_not,
    beq_eq_false_iff_ne] at h
  unfold elapsedSince
  omega

end Moment

namespace Holiday

theorem tdiv_eq_ite (x y : Int) : x.tdiv y = if 0 ≤ x then x / y else -(-x / y) := by
  split
  . next h => exact Int.tdiv_eq_ediv_of_nonneg h
  . next h =>
    rw [← Int.tdiv_eq_ediv_of_nonneg (by omega)]
    rw [Int.neg_tdiv]
    rw [neg_neg]

theorem proximity_cases {α : Type} [Arith α] (h : Holiday) (m : Moment) :
    (h.proximity m : α) = Arith.ofNat 0 ∨ (h.proximity m : α) = Arith.ofNat 1 ∨
      ∃ seconds : Int, 0 ≤ seconds ∧ seconds < 86400 ∧
        (h.proximity m : α) = remainingShare seconds := by
  unfold proximity
  split
  . exact .inl rfl
  . next d _ =>
    split
    . next hafter =>
      simp only
      split
      . exact .inr (.inl rfl)
      . split
        . next hday =>
          rw [tdiv_eq_ite _ 86400] at hday
          refine .inr (.inr ⟨_, ?_, ?_, rfl⟩)
          . split at hday <;> omega
          . split at hday <;> omega
        . exact .inl rfl
    . next hbefore =>
      have hlate := Moment.elapsedSince_lt_of_not_isAfter (Bool.not_eq_true _ ▸ hbefore)
      simp only
      split
      . next hday =>
        have hseconds : 0 ≤ (-m.elapsedSince d).tdiv 1000000000 := by
          rw [tdiv_eq_ite]
          split
          . omega
          . omega
        rw [Int.tdiv_eq_ediv_of_nonneg hseconds] at hday
        exact .inr (.inr ⟨_, hseconds, by omega, rfl⟩)
      . exact .inl rfl

theorem remainingShare_eq (seconds : Int) :
    (remainingShare seconds : Rat) = 1 - (seconds : Rat) / 86400 := rfl

theorem remainingShare_bounds {seconds : Int} (h : 0 ≤ seconds) (hlt : seconds < 86400) :
    (0 : Rat) ≤ remainingShare seconds ∧ (remainingShare seconds : Rat) ≤ 1 := by
  have h : (0 : Rat) ≤ seconds := by exact_mod_cast h
  have hlt : (seconds : Rat) < 86400 := by exact_mod_cast hlt
  rw [remainingShare_eq]
  constructor
  . linarith
  . linarith

theorem proximity_bounds (h : Holiday) (m : Moment) :
    (0 : Rat) ≤ h.proximity m ∧ (h.proximity m : Rat) ≤ 1 := by
  rcases h.proximity_cases (α := Rat) m with hzero | hone | ⟨seconds, hnonneg, hlt, hshare⟩
  . rw [hzero]
    constructor <;> norm_num
  . rw [hone]
    constructor <;> norm_num
  . rw [hshare]
    exact remainingShare_bounds hnonneg hlt

end Holiday

namespace Aspect

theorem flag_bounds (b : Bool) : (0 : Rat) ≤ flag b ∧ (flag b : Rat) ≤ 1 := by
  cases b with
  | false => constructor <;> norm_num [flag]
  | true => constructor <;> norm_num [flag]

theorem value_bounds (a : Aspect) (days : DaySet) (m : Moment) :
    (a.low : Rat) ≤ a.value days m ∧ (a.value days m : Rat) ≤ a.high ∧
      (a.periodic = true → (a.value days m : Rat) < a.high) := by
  have hzero : (low a : Rat) = 0 := rfl
  rw [hzero]
  cases a with
  | season =>
    have hlt : (m.date.dayOfYear : Rat) < 366 := by exact_mod_cast m.date.dayOfYear_lt
    have hvalue : (value days m season : Rat) = m.date.dayOfYear := rfl
    have hhigh : (high season : Rat) = 366 := rfl
    rw [hvalue]
    rw [hhigh]
    exact ⟨Nat.cast_nonneg _, le_of_lt hlt, fun _ => hlt⟩
  | dayOfWeek =>
    have hlt : (m.weekday.index : Rat) < 7 := by exact_mod_cast m.weekday.index_lt
    have hvalue : (value days m dayOfWeek : Rat) = m.weekday.index := rfl
    have hhigh : (high dayOfWeek : Rat) = 7 := rfl
    rw [hvalue]
    rw [hhigh]
    exact ⟨Nat.cast_nonneg _, le_of_lt hlt, fun _ => hlt⟩
  | weekend =>
    have hbounds := flag_bounds (m.isWeekend Rat)
    exact ⟨hbounds.1, hbounds.2, nofun⟩
  | customDays =>
    have hbounds := flag_bounds (days.contains m.weekday)
    exact ⟨hbounds.1, hbounds.2, nofun⟩
  | holiday =>
    have hbounds := Holiday.christmas.proximity_bounds m
    exact ⟨hbounds.1, hbounds.2, nofun⟩
  | timeOfDay =>
    have hbounds := m.timeOfDay_bounds
    exact ⟨hbounds.1, le_of_lt hbounds.2, fun _ => hbounds.2⟩

end Aspect

end CalendarCode
