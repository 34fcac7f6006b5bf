import CalendarCode.Proofs.Arith
import CalendarCode.Scalar.Bucket
import CalendarCode.Scalar.Decode
import Mathlib.Algebra.Order.Floor.Ring

/-!
This module contains the quantities of a scalar codec over exact numbers. The positions of a codec
are one step apart: the resolution on a line, and the share of one position on a circle. The bucket
of a value is the number of whole steps from the lowest value to it, and on a line half a step more.
-/

namespace CalendarCode

/-- The number of positions that settings ask for, whether a word can hold it or not. -/
def ScalarConfig.positions (c : ScalarConfig Rat) : Int :=
  ⌈c.span / c.resolution⌉ + (if c.periodic then 0 else c.width : Nat)

theorem ScalarConfig.size_eq_saturate (c : ScalarConfig Rat) (hwidth : c.width % 2 = 1)
    (hdomain : c.low ≤ c.high) (hradius : 0 < c.radius) :
    ∃ n : Nat, (n : Int) = c.positions ∧ c.size = Word.saturate n := by
  have hpos : (0 : Rat) < c.width := by
    exact_mod_cast show 0 < c.width by omega
  have hspan : 0 ≤ c.span := sub_nonneg.mpr hdomain
  have hres : c.resolution = c.radius / c.width := rfl
  have hsum : c.width * (c.range / c.radius) + 2 * c.padding
      = c.span / c.resolution + (if c.periodic then 0 else c.width : Nat) := by
    cases h : c.periodic with
    | false =>
      have hodd : c.width = 2 * c.halfwidth + 1 := by
        simp only [ScalarConfig.halfwidth]
        omega
      have hcast : (c.width : Rat) = 2 * c.halfwidth + 1 := by exact_mod_cast hodd
      simp only [ScalarConfig.range, ScalarConfig.padding, h, Bool.false_eq_true, ↓reduceIte]
      rw [hres]
      field_simp
      rw [hcast]
      ring
    | true =>
      simp only [ScalarConfig.range, ScalarConfig.padding, h, ↓reduceIte]
      rw [hres]
      field_simp
      simp
  refine ⟨Arith.ceil (c.width * (c.range / c.radius) + 2 * c.padding : Rat), ?_, rfl⟩
  unfold positions
  rw [hsum]
  rw [Arith.ceil_of_nonneg]
  . rw [Int.ceil_add_natCast]
  . rw [hres]
    positivity

theorem ScalarConfig.size_eq_positions (c : ScalarConfig Rat) (hwidth : c.width % 2 = 1)
    (hdomain : c.low ≤ c.high) (hradius : 0 < c.radius) (hsize : c.size < 2 ^ 64 - 1) :
    (c.size : Int) = c.positions := by
  obtain ⟨n, hn, hsaturate⟩ := c.size_eq_saturate hwidth hdomain hradius
  unfold Word.saturate at hsaturate
  rw [show c.size = n by omega]
  exact hn

namespace ScalarCodec

variable (k : ScalarCodec Rat)

theorem width_pos_exact : (0 : Rat) < k.width := by
  exact_mod_cast k.width_pos

theorem resolution_eq : k.resolution = k.radius / k.width := rfl

theorem span_eq : k.span = k.high - k.low := rfl

theorem resolution_pos : 0 < k.resolution := by
  rw [resolution_eq]
  apply div_pos
  . exact k.radius_pos
  . exact k.width_pos_exact

theorem span_pos : 0 < k.span := by
  rw [span_eq]
  have := k.low_lt_high
  linarith

theorem low_le_high : k.low ≤ k.high :=
  le_of_lt k.low_lt_high

theorem range_of_circle (h : k.periodic = true) : k.range = k.span := by
  simp [ScalarConfig.range, h]

theorem padding_of_circle (h : k.periodic = true) : k.padding = 0 := by
  simp [ScalarConfig.padding, h]

theorem padding_of_line (h : k.periodic = false) : k.padding = k.halfwidth := by
  simp [ScalarConfig.padding, h]

theorem innerSize_of_circle (h : k.periodic = true) : k.innerSize = k.size := by
  simp [ScalarConfig.innerSize, k.padding_of_circle h]

theorem bucketCount_of_circle (h : k.periodic = true) : k.bucketCount = k.size := by
  simp only [ScalarConfig.bucketCount, h, ↓reduceIte]
  exact k.innerSize_of_circle h

theorem size_lt_top {α : Type} [Arith α] (k : ScalarCodec α) : k.size < 2 ^ 64 - 1 :=
  lt_trans k.fits.1 (by norm_num)

theorem size_eq_positions : (k.size : Int) = k.positions :=
  ScalarConfig.size_eq_positions _ k.width_odd k.low_le_high k.radius_pos k.size_lt_top

theorem size_of_circle (h : k.periodic = true) : (k.size : Int) = ⌈k.span / k.resolution⌉ := by
  rw [k.size_eq_positions]
  simp [ScalarConfig.positions, h]

theorem size_of_line (h : k.periodic = false) :
    (k.size : Int) = ⌈k.span / k.resolution⌉ + k.width := by
  rw [k.size_eq_positions]
  simp [ScalarConfig.positions, h]

def step : Rat :=
  if k.periodic then k.span / k.size else k.resolution

theorem step_of_circle (h : k.periodic = true) : k.step = k.span / k.size := by
  simp [step, h]

theorem step_of_line (h : k.periodic = false) : k.step = k.resolution := by
  simp [step, h]

theorem size_pos_exact : (0 : Rat) < k.size := by
  exact_mod_cast k.size_pos

theorem step_pos : 0 < k.step := by
  unfold step
  split
  . exact div_pos k.span_pos k.size_pos_exact
  . exact k.resolution_pos

theorem step_le_resolution : k.step ≤ k.resolution := by
  cases h : k.periodic with
  | false => rw [k.step_of_line h]
  | true =>
    have hceil := Int.le_ceil (k.span / k.resolution)
    rw [← k.size_of_circle h] at hceil
    rw [k.step_of_circle h]
    rw [div_le_iff₀ k.size_pos_exact]
    rw [div_le_iff₀ k.resolution_pos] at hceil
    push_cast at hceil
    linarith

theorem size_mul_step (h : k.periodic = true) : k.size * k.step = k.span := by
  rw [k.step_of_circle h]
  rw [mul_div_cancel₀]
  exact ne_of_gt k.size_pos_exact

end ScalarCodec

end CalendarCode
