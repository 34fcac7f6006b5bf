import CalendarCode.Proofs.MomentCodec.Build
import CalendarCode.Proofs.Calendar
import CalendarCode.Proofs.Scalar.Rounded

/-!
This module contains that no field of a codec of moments loses a part of its run to rounding. The
domains of all aspects are small, and what moments are encoded by is finite.
-/

namespace CalendarCode

open Arith

variable {α : Type} [Arith α] {value : α → Rat}

theorem Holiday.isFinite_remainingShare (hα : Rounds value) {seconds : Int} (h : 0 ≤ seconds)
    (hlt : seconds < 86400) : isFinite (remainingShare seconds : α) = true := by
  have hseconds : (0 : Rat) ≤ seconds := by exact_mod_cast h
  have hlt : (seconds : Rat) < 86400 := by exact_mod_cast hlt
  obtain ⟨hone, honeval⟩ := hα.ofNat (n := 1) (by norm_num)
  obtain ⟨hday, hdayval⟩ := hα.ofNat (n := 86400) (by norm_num)
  obtain ⟨hnum, hnumval⟩ := hα.ofInt seconds (by rw [abs_of_nonneg h]; omega)
  have hshare := hα.div _ _ hnum hday (by rw [hdayval]; norm_num)
  rw [hnumval, hdayval] at hshare
  push_cast at hshare
  have hnonneg : 0 ≤ (seconds : Rat) / 86400 := by positivity
  have hle : (seconds : Rat) / 86400 ≤ 1 := by linarith
  have hshare := hshare.of_abs_le hα (by rw [abs_of_nonneg hnonneg]; linarith)
  have hvalue := hshare.value_le hnonneg
  have hpos := hshare.nonneg hnonneg
  have hrest := hα.sub _ _ hone hshare.isFinite
  rw [honeval] at hrest
  exact (hrest.of_abs_le hα (by push_cast; rw [abs_le]; constructor <;> linarith)).isFinite

theorem Moment.timeOfDay_mem (hα : Rounds value) (m : Moment) :
    isFinite (m.timeOfDay : α) = true ∧ 0 ≤ value m.timeOfDay := by
  have hhour := m.clock.hour_lt
  have hminute := m.clock.minute_lt
  obtain ⟨hhours, hhoursval⟩ := hα.ofNat (n := m.clock.hour) (by omega)
  obtain ⟨hminutes, hminutesval⟩ := hα.ofNat (n := m.clock.minute) (by omega)
  obtain ⟨hsixty, hsixtyval⟩ := hα.ofNat (n := 60) (by norm_num)
  have hshare := hα.div _ _ hminutes hsixty (by rw [hsixtyval]; norm_num)
  rw [hminutesval, hsixtyval] at hshare
  have hhour : (m.clock.hour : Rat) < 24 := by exact_mod_cast hhour
  have hminute : (m.clock.minute : Rat) < 60 := by exact_mod_cast hminute
  have hnonneg : 0 ≤ (m.clock.minute : Rat) / (60 : Nat) := by positivity
  have hle : (m.clock.minute : Rat) / (60 : Nat) ≤ 1 := by push_cast; linarith
  have hshare := hshare.of_abs_le hα (by rw [abs_of_nonneg hnonneg]; linarith)
  have hvalue := hshare.value_le hnonneg
  have hpos := hshare.nonneg hnonneg
  have hsum := hα.add _ _ hhours hshare.isFinite
  rw [hhoursval] at hsum
  have hsumpos : 0 ≤ (m.clock.hour : Rat) + value (ofNat m.clock.minute / ofNat 60 : α) := by
    positivity
  have hsum := hsum.of_abs_le hα (by rw [abs_of_nonneg hsumpos]; linarith)
  exact ⟨hsum.isFinite, hsum.nonneg hsumpos⟩

namespace Aspect

theorem ofNat_mem (hα : Rounds value) {n : Nat} (hn : n ≤ 2 ^ 53) :
    isFinite (Arith.ofNat n : α) = true ∧ 0 ≤ value (Arith.ofNat n) := by
  obtain ⟨hfinite, hvalue⟩ := hα.ofNat hn
  rw [hvalue]
  exact ⟨hfinite, Nat.cast_nonneg n⟩

theorem isFinite_flag (hα : Rounds value) (b : Bool) : isFinite (flag b : α) = true := by
  cases b with
  | false => exact (hα.ofNat (n := 0) (by norm_num)).1
  | true => exact (hα.ofNat (n := 1) (by norm_num)).1

theorem value_mem (hα : Rounds value) (a : Aspect) (days : DaySet) (m : Moment) :
    isFinite (a.value days m : α) = true ∧ (a.periodic = true → 0 ≤ value (a.value days m)) := by
  have hday := m.date.dayOfYear_lt
  have hindex := m.weekday.index_lt
  cases a with
  | season =>
    obtain ⟨hfinite, hnonneg⟩ := ofNat_mem hα (n := m.date.dayOfYear) (by omega)
    exact ⟨hfinite, fun _ => hnonneg⟩
  | dayOfWeek =>
    obtain ⟨hfinite, hnonneg⟩ := ofNat_mem hα (n := m.weekday.index) (by omega)
    exact ⟨hfinite, fun _ => hnonneg⟩
  | weekend => exact ⟨isFinite_flag hα _, nofun⟩
  | customDays => exact ⟨isFinite_flag hα _, nofun⟩
  | holiday =>
    have hvalue : (holiday.value days m : α) = Holiday.christmas.proximity m := rfl
    rw [hvalue]
    refine ⟨?_, nofun⟩
    rcases Holiday.christmas.proximity_cases (α := α) m with h | h | ⟨seconds, hpos, hlt, h⟩
    . rw [h]
      exact (hα.ofNat (n := 0) (by norm_num)).1
    . rw [h]
      exact (hα.ofNat (n := 1) (by norm_num)).1
    . rw [h]
      exact Holiday.isFinite_remainingShare hα hpos hlt
  | timeOfDay =>
    obtain ⟨hfinite, hnonneg⟩ := m.timeOfDay_mem hα
    exact ⟨hfinite, fun _ => hnonneg⟩

end Aspect

theorem ScalarCodec.HasDomain.writesRun (hα : Rounds value) {k : ScalarCodec α} {a : Aspect}
    (hk : k.HasDomain a) (hsize : k.size ≤ 2 ^ 49) (days : DaySet) (m : Moment) :
    k.WritesRun (a.value days m) := by
  obtain ⟨hfinite, hnonneg⟩ := a.value_mem hα days m
  obtain ⟨hlow, hhigh, hperiodic⟩ := hk
  cases a with
  | season =>
    have hcircle : k.IsSmallCircle 366 := ⟨hperiodic, hlow, hhigh, by omega, by omega, hsize⟩
    exact hcircle.writesRun hα hfinite (hnonneg rfl)
  | dayOfWeek =>
    have hcircle : k.IsSmallCircle 7 := ⟨hperiodic, hlow, hhigh, by omega, by omega, hsize⟩
    exact hcircle.writesRun hα hfinite (hnonneg rfl)
  | timeOfDay =>
    have hcircle : k.IsSmallCircle 24 := ⟨hperiodic, hlow, hhigh, by omega, by omega, hsize⟩
    exact hcircle.writesRun hα hfinite (hnonneg rfl)
  | weekend =>
    have hline : k.IsUnitLine := ⟨hperiodic, hlow, hhigh, hsize⟩
    exact hline.writesRun hα hfinite
  | customDays =>
    have hline : k.IsUnitLine := ⟨hperiodic, hlow, hhigh, hsize⟩
    exact hline.writesRun hα hfinite
  | holiday =>
    have hline : k.IsUnitLine := ⟨hperiodic, hlow, hhigh, hsize⟩
    exact hline.writesRun hα hfinite

end CalendarCode
