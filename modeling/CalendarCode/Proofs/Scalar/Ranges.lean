import CalendarCode.Proofs.Scalar.Encode
import CalendarCode.Scalar.Decode

/-!
This module contains the ranges of runs that are at least as long as the run of one bucket. They go
from the lowest value of the first bucket to that of the last one, and on a circle they fall apart
where the highest value is followed by the lowest one.
-/

namespace CalendarCode.ScalarCodec

section

variable {α : Type} [Arith α] (k : ScalarCodec α)

theorem centers_of_width_le {run : Run} (h : k.width ≤ run.length) :
    k.centers run = (run.start + k.halfwidth, run.start + run.length - 1 - k.halfwidth) := by
  have hwidth := k.width_eq
  unfold centers
  split
  . simp only [Prod.mk.injEq]
    constructor
    . omega
    . omega
  . rfl

end

variable (k : ScalarCodec Rat)

def mark (b : Nat) : Rat :=
  if k.periodic then k.low + b * k.range / k.size else min (k.low + b * k.resolution) k.high

def arc (lo hi : Nat) : List (Rat × Rat) :=
  if k.periodic && decide (hi < lo) then [(k.mark lo, k.high), (k.low, k.mark hi)]
  else [(k.mark lo, k.mark hi)]

theorem mark_of_circle (h : k.periodic = true) (b : Nat) : k.mark b = k.low + b * k.step := by
  simp only [mark, h, ↓reduceIte]
  rw [k.range_of_circle h]
  rw [k.step_of_circle h]
  rw [mul_div_assoc]

theorem mark_of_line (h : k.periodic = false) (b : Nat) :
    k.mark b = min (k.low + b * k.resolution) k.high := by
  simp [mark, h]

theorem high_eq_of_circle (h : k.periodic = true) : k.high = k.low + k.size * k.step := by
  rw [k.size_mul_step h]
  rw [span_eq]
  ring

theorem valueAt_of_circle (h : k.periodic = true) (p : Nat) : k.valueAt p = k.low + p * k.step := by
  have hexact : k.valueAt p
      = ((p : Rat) - (k.padding : Nat)) * k.range / (k.innerSize : Nat) + k.low := by
    simp only [valueAt, h, ↓reduceIte]
    rfl
  rw [hexact]
  rw [k.padding_of_circle h]
  rw [k.innerSize_of_circle h]
  rw [k.range_of_circle h]
  rw [k.step_of_circle h]
  push_cast
  ring

theorem valueAt_eq_of_line (h : k.periodic = false) (p : Nat) :
    k.valueAt p = k.low + (p - k.halfwidth) * k.resolution := by
  have hexact : k.valueAt p = ((p : Rat) - (k.padding : Nat)) * k.resolution + k.low := by
    simp only [valueAt, h, Bool.false_eq_true, ↓reduceIte]
    rfl
  rw [hexact]
  rw [k.padding_of_line h]
  rw [add_comm]

theorem valueAt_of_line (h : k.periodic = false) (b : Nat) :
    k.valueAt (b + k.halfwidth) = k.low + b * k.resolution := by
  rw [k.valueAt_eq_of_line h]
  push_cast
  rw [add_sub_cancel_right]

theorem high_le_valueAt_iff (h : k.periodic = true) (p : Nat) :
    k.high ≤ k.valueAt p ↔ k.size ≤ p := by
  rw [k.valueAt_of_circle h]
  rw [k.high_eq_of_circle h]
  rw [add_le_add_iff_left]
  rw [mul_le_mul_iff_of_pos_right k.step_pos]
  exact Nat.cast_le

theorem low_le_valueAt (h : k.periodic = true) (p : Nat) : k.low ≤ k.valueAt p := by
  rw [k.valueAt_of_circle h]
  have := mul_nonneg (Nat.cast_nonneg (α := Rat) p) (le_of_lt k.step_pos)
  linarith

theorem valueAt_add_size (h : k.periodic = true) (p : Nat) :
    k.valueAt (p + k.size) - k.range = k.valueAt p := by
  rw [k.valueAt_of_circle h]
  rw [k.valueAt_of_circle h]
  rw [k.range_of_circle h]
  rw [← k.size_mul_step h]
  push_cast
  ring

theorem rangesOf_of_line (h : k.periodic = false) {run : Run} (hlength : k.width ≤ run.length) :
    k.rangesOf run = k.arc run.start (run.start + run.length - k.width) := by
  have hwidth := k.width_eq
  have hlast : run.start + run.length - 1 - k.halfwidth
      = run.start + run.length - k.width + k.halfwidth := by omega
  have hle (b : Nat) : k.low ≤ k.low + b * k.resolution := by
    have := mul_nonneg (Nat.cast_nonneg (α := Rat) b) (le_of_lt k.resolution_pos)
    linarith
  simp only [rangesOf, k.centers_of_width_le hlength, arc, h, Bool.false_and, Bool.false_eq_true,
    ↓reduceIte, Arith.larger_eq_max, Arith.smaller_eq_min, k.mark_of_line h]
  rw [hlast]
  rw [k.valueAt_of_line h]
  rw [k.valueAt_of_line h]
  rw [max_eq_left (hle _)]
  rw [max_eq_left (hle _)]

theorem valueAt_eq_mark (h : k.periodic = true) (p : Nat) : k.valueAt p = k.mark p := by
  rw [k.valueAt_of_circle h]
  rw [k.mark_of_circle h]

theorem valueAt_lt_high (h : k.periodic = true) {p : Nat} (hp : p < k.size) :
    k.valueAt p < k.high := by
  rw [← not_le]
  rw [k.high_le_valueAt_iff h]
  omega

theorem ranges_of_lt_size (h : k.periodic = true) {l r : Nat} (hl : l < k.size) (hle : l ≤ r)
    (hr : r < l + k.size) :
    (if k.high ≤ k.valueAt r then [(k.valueAt l, k.high), (k.low, k.valueAt r - k.range)]
      else [(min (k.valueAt l) k.high, min (k.valueAt r) k.high)])
      = k.arc (k.place l) (k.place r) := by
  rw [k.place_of_lt h hl]
  by_cases hbeyond : k.size ≤ r
  . obtain ⟨q, rfl⟩ := Nat.exists_eq_add_of_le' hbeyond
    have hcross : decide (q < l) = true := by
      rw [decide_eq_true_eq]
      omega
    rw [if_pos ((k.high_le_valueAt_iff h _).mpr hbeyond)]
    push_cast
    rw [k.place_add_size h]
    rw [k.place_of_lt h (by omega)]
    rw [k.valueAt_add_size h]
    simp only [arc, h, hcross, Bool.and_self, ↓reduceIte, k.valueAt_eq_mark h]
  . have hcross : decide (r < l) = false := by
      rw [decide_eq_false_iff_not]
      omega
    rw [if_neg (by rwa [k.high_le_valueAt_iff h])]
    rw [k.place_of_lt h (by omega)]
    rw [min_eq_left (le_of_lt (k.valueAt_lt_high h hl))]
    rw [min_eq_left (le_of_lt (k.valueAt_lt_high h (by omega)))]
    simp only [arc, hcross, Bool.and_false, Bool.false_eq_true, ↓reduceIte, k.valueAt_eq_mark h]

theorem rangesOf_of_centers (h : k.periodic = true) {run : Run} {left right : Nat}
    (hcenters : k.centers run = (left, right)) (hle : left ≤ right) (hlt : right < left + k.size)
    (hleft : left < 2 * k.size) : k.rangesOf run = k.arc (k.place left) (k.place right) := by
  simp only [rangesOf, hcenters, h, Bool.true_and, decide_eq_true_eq, Arith.larger_eq_max,
    Arith.smaller_eq_min, k.high_le_valueAt_iff h]
  by_cases hbeyond : k.size ≤ left
  . obtain ⟨l, rfl⟩ := Nat.exists_eq_add_of_le' hbeyond
    obtain ⟨r, rfl⟩ := Nat.exists_eq_add_of_le' (show k.size ≤ right by omega)
    simp only [hbeyond, ↓reduceIte, k.valueAt_add_size h, max_eq_left (k.low_le_valueAt h _)]
    rw [k.ranges_of_lt_size h (by omega) (by omega) (by omega)]
    push_cast
    rw [k.place_add_size h]
    rw [k.place_add_size h]
  . simp only [hbeyond, ↓reduceIte, max_eq_left (k.low_le_valueAt h _)]
    exact k.ranges_of_lt_size h (by omega) hle hlt

theorem rangesOf_of_circle (h : k.periodic = true) {run : Run} (hstart : run.start < k.size)
    (hlength : k.width ≤ run.length) (hle : run.length ≤ k.size) :
    k.rangesOf run = k.arc (k.place (run.start + k.halfwidth))
      (k.place (run.start + run.length - 1 - k.halfwidth)) := by
  have hwidth := k.width_eq
  have hlt := k.width_lt_size
  have hlast : ((run.start + run.length - 1 - k.halfwidth : Nat) : Int)
      = run.start + run.length - 1 - k.halfwidth := by omega
  rw [k.rangesOf_of_centers h (k.centers_of_width_le hlength) (by omega) (by omega) (by omega)]
  push_cast
  rw [hlast]

end CalendarCode.ScalarCodec
