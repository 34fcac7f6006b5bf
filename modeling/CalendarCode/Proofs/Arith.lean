import CalendarCode.Arith.Exact
import Mathlib.Data.Rat.Floor
import Mathlib.Tactic.FieldSimp
import Mathlib.Tactic.Linarith

/-!
This module relates the operations of the exact arithmetic to the ones that a linear order and a
floor function come with. Everything that is said about exact codecs goes through these equations.
-/

namespace CalendarCode.Arith

theorem truncate_of_nonneg {x : Rat} (h : 0 ≤ x) : truncate x = ⌊x⌋ := by
  rw [truncate_exact]
  rw [if_neg (not_lt.mpr h)]
  rfl

theorem ceil_of_nonneg {x : Rat} (h : 0 ≤ x) : (ceil x : Int) = ⌈x⌉ := by
  have hceil : x.ceil = ⌈x⌉ := Rat.ceil_eq_neg_floor_neg x
  rw [ceil_exact]
  rw [hceil]
  apply Int.toNat_of_nonneg
  apply Int.ceil_nonneg
  assumption

theorem abs_eq_abs (x : Rat) : Arith.abs x = |x| := by
  rw [abs_exact]
  split
  . next h => rw [abs_of_neg h]
  . next h => rw [abs_of_nonneg (not_lt.mp h)]

theorem larger_eq_max (x y : Rat) : larger x y = max x y := by
  unfold larger
  split
  . next h => rw [max_eq_right (le_of_lt h)]
  . next h => simp [max_eq_left (not_lt.mp h)]

theorem smaller_eq_min (x y : Rat) : smaller x y = min x y := by
  unfold smaller
  split
  . next h => rw [min_eq_right (le_of_lt h)]
  . next h => simp [min_eq_left (not_lt.mp h)]

theorem clamp_eq (low high x : Rat) (h : low ≤ high) :
    clamp low high x = max low (min x high) := by
  unfold clamp
  split
  . next hlow =>
    rw [max_eq_left]
    apply le_trans (min_le_left _ _)
    exact le_of_lt hlow
  . next hlow =>
    split
    . next hhigh =>
      rw [min_eq_right (le_of_lt hhigh)]
      rw [max_eq_right h]
    . next hhigh =>
      rw [min_eq_left (not_lt.mp hhigh)]
      rw [max_eq_right (not_lt.mp hlow)]

theorem clamp_of_mem {low high x : Rat} (hlow : low ≤ x) (hhigh : x ≤ high) :
    clamp low high x = x := by
  rw [clamp_eq _ _ _ (le_trans hlow hhigh)]
  rw [min_eq_left hhigh]
  rw [max_eq_right hlow]

theorem modulo_eq (x y : Rat) : modulo x y = x - y * ⌊x / y⌋ := rfl

theorem modulo_nonneg {y : Rat} (x : Rat) (h : 0 < y) : 0 ≤ modulo x y := by
  have hfloor := mul_le_mul_of_nonneg_left (Int.floor_le (x / y)) (le_of_lt h)
  rw [mul_div_cancel₀ x (ne_of_gt h)] at hfloor
  rw [modulo_eq]
  linarith

theorem modulo_lt {y : Rat} (x : Rat) (h : 0 < y) : modulo x y < y := by
  have hfloor := mul_lt_mul_of_pos_left (Int.lt_floor_add_one (x / y)) h
  rw [mul_div_cancel₀ x (ne_of_gt h)] at hfloor
  rw [modulo_eq]
  linarith

theorem modulo_add_mul (x : Rat) {y : Rat} (h : 0 < y) (turns : Int) :
    modulo (x + turns * y) y = modulo x y := by
  have hquot : (x + turns * y) / y = x / y + turns := by
    rw [add_div]
    rw [mul_div_cancel_right₀ _ (ne_of_gt h)]
  rw [modulo_eq]
  rw [modulo_eq]
  rw [hquot]
  rw [Int.floor_add_intCast]
  push_cast
  ring

theorem modulo_of_lt {x y : Rat} (h : 0 ≤ x) (hlt : x < y) : modulo x y = x := by
  have hpos : 0 < y := lt_of_le_of_lt h hlt
  have hfloor : ⌊x / y⌋ = 0 := by
    rw [Int.floor_eq_zero_iff]
    constructor
    . apply div_nonneg h (le_of_lt hpos)
    . rw [div_lt_one hpos]
      assumption
  rw [modulo_eq]
  rw [hfloor]
  simp

end CalendarCode.Arith
