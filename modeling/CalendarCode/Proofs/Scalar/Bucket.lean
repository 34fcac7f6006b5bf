import CalendarCode.Proofs.Scalar.Exact

/-!
This module contains the buckets of exact values. A value lies at most half a step away from the
value of its bucket, on every codec: the bucket is the whole number of steps below the value, after
half a step more on a line.
-/

namespace CalendarCode.ScalarCodec

variable (k : ScalarCodec Rat)

theorem bound_of_circle (h : k.periodic = true) (v : Rat) :
    k.bound v = Arith.modulo (v - k.low) k.span + k.low := by
  have hlt := Arith.modulo_lt (v - k.low) k.span_pos
  rw [span_eq] at hlt
  simp only [ScalarConfig.bound, h, ↓reduceIte, ite_eq_right_iff]
  intro hle
  rw [span_eq] at hle
  linarith

theorem bound_of_line (h : k.periodic = false) (v : Rat) :
    k.bound v = Arith.clamp k.low k.high v := by
  simp [ScalarConfig.bound, h]

theorem low_le_bound (v : Rat) : k.low ≤ k.bound v := by
  cases h : k.periodic with
  | false =>
    rw [k.bound_of_line h]
    rw [Arith.clamp_eq _ _ _ k.low_le_high]
    apply le_max_left
  | true =>
    have := Arith.modulo_nonneg (v - k.low) k.span_pos
    rw [k.bound_of_circle h]
    linarith

theorem bound_le_high (v : Rat) : k.bound v ≤ k.high := by
  cases h : k.periodic with
  | false =>
    rw [k.bound_of_line h]
    rw [Arith.clamp_eq _ _ _ k.low_le_high]
    apply max_le k.low_le_high
    apply min_le_right
  | true =>
    have := Arith.modulo_lt (v - k.low) k.span_pos
    rw [k.bound_of_circle h]
    rw [span_eq] at this ⊢
    linarith

theorem bound_lt_high (h : k.periodic = true) (v : Rat) : k.bound v < k.high := by
  have := Arith.modulo_lt (v - k.low) k.span_pos
  rw [k.bound_of_circle h]
  rw [span_eq] at this ⊢
  linarith

theorem bound_of_mem {v : Rat} (hlow : k.low ≤ v) (hhigh : v ≤ k.high)
    (hcircle : k.periodic = true → v < k.high) : k.bound v = v := by
  cases h : k.periodic with
  | false =>
    rw [k.bound_of_line h]
    exact Arith.clamp_of_mem hlow hhigh
  | true =>
    have := hcircle h
    rw [k.bound_of_circle h]
    rw [Arith.modulo_of_lt]
    . ring
    . linarith
    . rw [span_eq]
      linarith

/-- What a value has to be above the place of its bucket, in steps. -/
def lead : Rat :=
  if k.periodic then 0 else 1 / 2

def bucketOf (v : Rat) : Nat :=
  ⌊(k.bound v - k.low) / k.step + k.lead⌋.toNat

theorem lead_of_circle (h : k.periodic = true) : k.lead = 0 := by
  simp [lead, h]

theorem lead_of_line (h : k.periodic = false) : k.lead = 1 / 2 := by
  simp [lead, h]

theorem lead_nonneg : 0 ≤ k.lead := by
  unfold lead
  split
  . exact le_refl 0
  . norm_num

theorem steps_nonneg (v : Rat) : 0 ≤ (k.bound v - k.low) / k.step := by
  apply div_nonneg
  . have := k.low_le_bound v
    linarith
  . exact le_of_lt k.step_pos

theorem bucketOf_cast (v : Rat) :
    (k.bucketOf v : Int) = ⌊(k.bound v - k.low) / k.step + k.lead⌋ := by
  apply Int.toNat_of_nonneg
  apply Int.floor_nonneg.mpr
  have := k.steps_nonneg v
  have := k.lead_nonneg
  linarith

theorem bucketOf_lead_le (v : Rat) :
    k.low + (k.bucketOf v - k.lead) * k.step ≤ k.bound v := by
  have hfloor := Int.floor_le ((k.bound v - k.low) / k.step + k.lead)
  rw [← bucketOf_cast] at hfloor
  rw [← sub_le_iff_le_add] at hfloor
  rw [le_div_iff₀ k.step_pos] at hfloor
  push_cast at hfloor
  linarith

theorem lt_bucketOf_lead (v : Rat) :
    k.bound v < k.low + (k.bucketOf v + 1 - k.lead) * k.step := by
  have hfloor := Int.lt_floor_add_one ((k.bound v - k.low) / k.step + k.lead)
  rw [← bucketOf_cast] at hfloor
  rw [← lt_sub_iff_add_lt] at hfloor
  rw [div_lt_iff₀ k.step_pos] at hfloor
  push_cast at hfloor
  linarith

theorem bucketOf_mono {v w : Rat} (h : k.bound v ≤ k.bound w) : k.bucketOf v ≤ k.bucketOf w := by
  have hfloor : (k.bucketOf v : Int) ≤ k.bucketOf w := by
    rw [bucketOf_cast]
    rw [bucketOf_cast]
    apply Int.floor_le_floor
    have := div_le_div_of_nonneg_right (sub_le_sub_right h k.low) (le_of_lt k.step_pos)
    linarith
  exact_mod_cast hfloor

theorem bucketOf_lt_size (h : k.periodic = true) (v : Rat) : k.bucketOf v < k.size := by
  have hlow := k.bucketOf_lead_le v
  have hhigh := k.bound_lt_high h v
  have hspan := k.size_mul_step h
  rw [k.lead_of_circle h] at hlow
  rw [span_eq] at hspan
  have hmul : (k.bucketOf v : Rat) * k.step < k.size * k.step := by linarith
  exact_mod_cast lt_of_mul_lt_mul_right hmul (le_of_lt k.step_pos)

theorem bucketOf_add_width_le (h : k.periodic = false) (v : Rat) :
    k.bucketOf v + k.width ≤ k.size := by
  -- half a step more than the whole span does not lead past the next whole step
  have hlow := k.bucketOf_lead_le v
  have hhigh := k.bound_le_high v
  have hceil := Int.le_ceil (k.span / k.resolution)
  have hres := k.resolution_pos
  rw [k.lead_of_line h] at hlow
  rw [k.step_of_line h] at hlow
  rw [div_le_iff₀ hres] at hceil
  rw [span_eq] at hceil
  have hmul : (k.bucketOf v : Rat) * k.resolution
      < (⌈k.span / k.resolution⌉ + 1) * k.resolution := by
    rw [span_eq]
    linarith
  have hlt : (k.bucketOf v : Rat) < ⌈k.span / k.resolution⌉ + 1 :=
    lt_of_mul_lt_mul_right hmul (le_of_lt hres)
  have hlt : (k.bucketOf v : Int) < ⌈k.span / k.resolution⌉ + 1 := by exact_mod_cast hlt
  have := k.size_of_line h
  omega

theorem truncate_of_circle (h : k.periodic = true) (v : Rat) :
    Arith.truncate ((k.bound v - k.low) * Arith.ofNat k.innerSize / k.range) = k.bucketOf v := by
  have hspan := k.span_pos
  have hsize := k.size_pos_exact
  have hquot : (k.bound v - k.low) * Arith.ofNat k.innerSize / k.range
      = (k.bound v - k.low) / k.step + k.lead := by
    rw [k.innerSize_of_circle h]
    rw [k.range_of_circle h]
    rw [k.step_of_circle h]
    rw [k.lead_of_circle h]
    rw [Arith.ofNat_exact]
    field_simp
    simp
  rw [hquot]
  rw [bucketOf_cast]
  rw [Arith.truncate_of_nonneg]
  exact add_nonneg (k.steps_nonneg v) k.lead_nonneg

theorem truncate_of_line (h : k.periodic = false) (v : Rat) :
    Arith.truncate ((k.bound v - k.low + k.resolution / Arith.ofNat 2) / k.resolution)
      = k.bucketOf v := by
  have hres := k.resolution_pos
  have hquot : (k.bound v - k.low + k.resolution / Arith.ofNat 2) / k.resolution
      = (k.bound v - k.low) / k.step + k.lead := by
    rw [k.step_of_line h]
    rw [k.lead_of_line h]
    rw [Arith.ofNat_exact]
    field_simp
    push_cast
    ring
  rw [hquot]
  rw [bucketOf_cast]
  rw [Arith.truncate_of_nonneg]
  exact add_nonneg (k.steps_nonneg v) k.lead_nonneg

/-- The position is a word, because memory has room for all positions. -/
theorem center_bound (v : Rat) : k.center (k.bound v) = k.bucketOf v + k.padding := by
  have hfits := k.fits.1
  unfold ScalarConfig.center
  cases h : k.periodic with
  | false =>
    have hlast := k.bucketOf_add_width_le h v
    have hwidth := k.width_eq
    rw [if_neg Bool.false_ne_true]
    rw [k.truncate_of_line h]
    rw [k.padding_of_line h]
    rw [Word.clamp_of_lt (by omega) (by omega)]
    rw [Word.wrap_of_lt (by omega) (by omega)]
  | true =>
    have hlast := k.bucketOf_lt_size h v
    rw [if_pos rfl]
    rw [k.truncate_of_circle h]
    rw [k.padding_of_circle h]
    rw [Word.clamp_of_lt (by omega) (by omega)]
    simp

end CalendarCode.ScalarCodec
