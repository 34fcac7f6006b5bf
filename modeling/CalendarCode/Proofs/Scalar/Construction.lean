import CalendarCode.Proofs.Scalar.Reconstruct

/-!
This module contains the settings that there are codecs for, and the sizes of these codecs. Both
depend on how many resolutions the domain is long: a circle has to be longer than one run, a line
always has enough positions as long as words can count them, and the tables have to fit into memory.
-/

namespace CalendarCode

namespace ScalarConfig

def steps (c : ScalarConfig Rat) : Rat :=
  c.width * (c.high - c.low) / c.radius

/-- Whether the settings describe runs that have a middle and a domain that they do not fill. -/
structure IsMeaningful (c : ScalarConfig Rat) : Prop where
  width_odd : c.width % 2 = 1
  low_lt_high : c.low < c.high
  radius_pos : 0 < c.radius
  radius_lt_span : c.periodic = true → c.radius < c.high - c.low

variable {c : ScalarConfig Rat}

theorem steps_eq (c : ScalarConfig Rat) : c.steps = c.span / c.resolution := by
  have hres : c.resolution = c.radius / c.width := rfl
  have hspan : c.span = c.high - c.low := rfl
  unfold steps
  rw [hres]
  rw [hspan]
  rw [div_div_eq_mul_div]
  rw [mul_comm]

theorem width_lt_ceil_steps_iff (hwidth : 0 < c.width) (hradius : 0 < c.radius) :
    (c.width : Int) < ⌈c.steps⌉ ↔ c.radius < c.high - c.low := by
  have hpos : (0 : Rat) < c.width := by exact_mod_cast hwidth
  rw [Int.lt_ceil]
  unfold steps
  rw [lt_div_iff₀ hradius]
  push_cast
  rw [mul_lt_mul_iff_of_pos_left hpos]

theorem ceil_steps_pos (hwidth : 0 < c.width) (hdomain : c.low < c.high) (hradius : 0 < c.radius) :
    0 < ⌈c.steps⌉ := by
  have hpos : (0 : Rat) < c.width := by exact_mod_cast hwidth
  rw [Int.ceil_pos]
  unfold steps
  apply div_pos
  . exact mul_pos hpos (sub_pos.mpr hdomain)
  . exact hradius

theorem positions_eq (c : ScalarConfig Rat) :
    c.positions = if c.periodic then ⌈c.steps⌉ else ⌈c.steps⌉ + c.width := by
  unfold positions
  rw [steps_eq]
  cases c.periodic <;> simp

theorem width_lt_positions_iff (hwidth : c.width % 2 = 1) (hdomain : c.low < c.high)
    (hradius : 0 < c.radius) :
    c.width < c.positions ↔ (c.periodic = true → c.radius < c.high - c.low) := by
  have hpos := ceil_steps_pos (by omega) hdomain hradius
  rw [← width_lt_ceil_steps_iff (by omega) hradius]
  rw [positions_eq]
  cases c.periodic with
  | false =>
    simp only [Bool.false_eq_true, ↓reduceIte, false_implies, iff_true]
    omega
  | true => simp

/-- The largest word is no size, because every size that is too large looks like it. -/
theorem width_lt_size_iff (hwidth : c.width % 2 = 1) (hdomain : c.low < c.high)
    (hradius : 0 < c.radius) (hword : c.width < 2 ^ 64 - 1) :
    c.width < c.size ↔ (c.periodic = true → c.radius < c.high - c.low) := by
  obtain ⟨n, hn, hsize⟩ := c.size_eq_saturate hwidth (le_of_lt hdomain) hradius
  rw [← width_lt_positions_iff hwidth hdomain hradius]
  rw [← hn]
  rw [hsize]
  unfold Word.saturate
  omega

theorem size_eq_of_positions_lt (hwidth : c.width % 2 = 1) (hdomain : c.low < c.high)
    (hradius : 0 < c.radius) (hword : c.positions < 2 ^ 63) : (c.size : Int) = c.positions := by
  obtain ⟨n, hn, hsize⟩ := c.size_eq_saturate hwidth (le_of_lt hdomain) hradius
  rw [hsize]
  rw [Word.saturate_of_lt (by omega)]
  exact hn

def buckets (c : ScalarConfig Rat) : Int :=
  if c.periodic then ⌈c.steps⌉ else ⌊c.steps + 1 / 2⌋ + 1

theorem offset_high (hwidth : c.width % 2 = 1) (hradius : 0 < c.radius) :
    (c.high - c.low + c.resolution / Arith.ofNat 2) / c.resolution = c.steps + 1 / 2 := by
  have hpos : (0 : Rat) < c.width := by exact_mod_cast show 0 < c.width by omega
  have hres : 0 < c.resolution := div_pos hradius hpos
  rw [steps_eq]
  rw [Arith.ofNat_exact]
  rw [show c.span = c.high - c.low by rfl]
  field_simp
  push_cast
  ring

theorem floor_steps_bounds (hwidth : c.width % 2 = 1) (hdomain : c.low < c.high)
    (hradius : 0 < c.radius) : 0 ≤ c.steps + 1 / 2 ∧ ⌊c.steps + 1 / 2⌋ ≤ ⌈c.steps⌉ := by
  have hpos := Int.ceil_pos.mp (ceil_steps_pos (by omega) hdomain hradius)
  have hlast : ⌊c.steps + 1 / 2⌋ < ⌈c.steps⌉ + 1 := by
    rw [Int.floor_lt]
    have := Int.le_ceil c.steps
    push_cast
    linarith
  constructor
  . linarith
  . omega

theorem start?_high_of_line (h : c.periodic = false) (hwidth : c.width % 2 = 1)
    (hdomain : c.low < c.high) (hradius : 0 < c.radius) (hword : ⌈c.steps⌉ + c.width < 2 ^ 63) :
    c.start? c.high = some ⌊c.steps + 1 / 2⌋ := by
  obtain ⟨hsteps, hlast⟩ := floor_steps_bounds hwidth hdomain hradius
  have hfloor := Int.floor_nonneg.mpr hsteps
  have hbound : c.bound c.high = c.high := by
    unfold bound
    rw [if_neg (by simp [h])]
    exact Arith.clamp_of_mem (le_of_lt hdomain) (le_refl _)
  have hcenter : c.center c.high = ⌊c.steps + 1 / 2⌋ + c.halfwidth := by
    unfold center padding
    rw [if_neg (by simp [h])]
    rw [if_neg (by simp [h])]
    rw [offset_high hwidth hradius]
    rw [Arith.truncate_of_nonneg hsteps]
    rw [Word.clamp_of_lt (by omega) (by omega)]
    apply Word.wrap_of_lt
    . omega
    . unfold halfwidth
      omega
  unfold start?
  rw [if_pos (Arith.isFinite_exact _)]
  rw [hbound]
  rw [hcenter]
  rw [Int.add_sub_cancel]
  rw [Word.wrap_of_lt (by omega) (by omega)]

theorem bucketCount_eq_buckets (hwidth : c.width % 2 = 1) (hdomain : c.low < c.high)
    (hradius : 0 < c.radius) (hword : c.positions < 2 ^ 63) :
    (c.bucketCount : Int) = c.buckets := by
  have hsize := size_eq_of_positions_lt hwidth hdomain hradius hword
  rw [positions_eq] at hsize hword
  unfold bucketCount buckets
  cases h : c.periodic with
  | true =>
    rw [h] at hsize
    rw [if_pos rfl]
    rw [if_pos rfl]
    rw [if_pos rfl] at hsize
    unfold innerSize padding
    rw [if_pos h]
    exact hsize
  | false =>
    rw [h] at hword
    rw [if_neg Bool.false_ne_true]
    rw [if_neg Bool.false_ne_true]
    rw [if_neg Bool.false_ne_true] at hword
    have hsteps := (floor_steps_bounds hwidth hdomain hradius).1
    rw [start?_high_of_line h hwidth hdomain hradius hword]
    rw [Option.getD_some]
    push_cast
    rw [Int.toNat_of_nonneg (Int.floor_nonneg.mpr hsteps)]

theorem two_mul_padding_lt {α : Type} [Arith α] {c : ScalarConfig α} (hwidth : c.width % 2 = 1)
    (hroom : c.width < c.size) : 2 * c.padding < c.size := by
  unfold padding halfwidth
  split
  . omega
  . omega

/-- Whether the tables of a codec with some settings fit into memory. -/
structure IsSmall (c : ScalarConfig Rat) : Prop where
  positions : c.positions < 2 ^ 63
  buckets : 24 * c.buckets < 2 ^ 63

theorem fits_iff_isSmall (hwidth : c.width % 2 = 1) (hdomain : c.low < c.high)
    (hradius : 0 < c.radius) : c.Fits ↔ c.IsSmall := by
  constructor
  . rintro ⟨hsize, hcount⟩
    have hpositions := c.size_eq_positions hwidth (le_of_lt hdomain) hradius (by omega)
    have hbuckets := bucketCount_eq_buckets hwidth hdomain hradius (by omega)
    exact ⟨by omega, by omega⟩
  . rintro ⟨hpositions, hbuckets⟩
    have hsize := size_eq_of_positions_lt hwidth hdomain hradius hpositions
    have hcount := bucketCount_eq_buckets hwidth hdomain hradius hpositions
    exact ⟨by omega, by omega⟩

end ScalarConfig

namespace ScalarCodec

theorem two_mul_padding_lt {α : Type} [Arith α] (k : ScalarCodec α) : 2 * k.padding < k.size :=
  ScalarConfig.two_mul_padding_lt k.width_odd k.width_lt_size

theorem exists_build_iff (c : ScalarConfig Rat) :
    (∃ k, build c = .ok k) ↔ c.IsMeaningful ∧ c.IsSmall := by
  constructor
  . rintro ⟨k, hk⟩
    rw [← toScalarConfig_of_build hk]
    refine ⟨⟨k.width_odd, k.low_lt_high, k.radius_pos, ?_⟩, ?_⟩
    . rw [← ScalarConfig.width_lt_size_iff k.width_odd k.low_lt_high k.radius_pos
        (lt_trans k.width_lt_size k.size_lt_top)]
      exact k.width_lt_size
    . exact (ScalarConfig.fits_iff_isSmall k.width_odd k.low_lt_high k.radius_pos).mp k.fits
  . rintro ⟨h, hsmall⟩
    have hfits := (ScalarConfig.fits_iff_isSmall h.width_odd h.low_lt_high h.radius_pos).mpr hsmall
    have hroom := (ScalarConfig.width_lt_positions_iff h.width_odd h.low_lt_high h.radius_pos).mpr
      h.radius_lt_span
    rw [← ScalarConfig.size_eq_of_positions_lt h.width_odd h.low_lt_high h.radius_pos
      hsmall.positions] at hroom
    exact ⟨_, build_toScalarConfig ⟨c, h.width_odd, h.low_lt_high, rfl, rfl, h.radius_pos, rfl,
      by exact_mod_cast hroom, hfits⟩⟩

theorem build_ne_noRoom_of_line {c : ScalarConfig Rat} (hline : c.periodic = false)
    (hwidth : c.width % 2 = 1) (hdomain : c.low < c.high) (hradius : 0 < c.radius)
    (hword : c.width < 2 ^ 64 - 1) (size width : Nat) : build c ≠ .error (.noRoom size width) := by
  have hroom := (ScalarConfig.width_lt_size_iff hwidth hdomain hradius hword).mpr
    (by simp [hline])
  unfold build
  rw [dif_pos hwidth]
  rw [dif_pos ⟨hdomain, rfl, rfl⟩]
  rw [dif_pos ⟨hradius, rfl⟩]
  rw [dif_pos hroom]
  split
  . simp
  . simp

variable (k : ScalarCodec Rat)

theorem positions_lt : k.positions < 2 ^ 63 := by
  have hfits := k.fits.1
  rw [← k.size_eq_positions]
  omega

theorem bucketCount_eq_buckets : (k.bucketCount : Int) = k.buckets :=
  ScalarConfig.bucketCount_eq_buckets k.width_odd k.low_lt_high k.radius_pos k.positions_lt

structure HasSizes : Prop where
  size : (k.size : Int) = if k.periodic then ⌈k.steps⌉ else ⌈k.steps⌉ + k.width
  /-- There are positions that are not padding. -/
  innerSize : (k.innerSize : Int) = k.size - 2 * k.padding ∧ 0 < k.innerSize
  bucketCount : (k.bucketCount : Int) = if k.periodic then ⌈k.steps⌉ else ⌊k.steps + 1 / 2⌋ + 1
  /-- The run of the last bucket of a line lies on it. -/
  fits : k.periodic = false → k.bucketCount - 1 + k.width ≤ k.size

theorem hasSizes : k.HasSizes where
  size := by
    rw [k.size_eq_positions]
    exact k.positions_eq
  innerSize := by
    have := k.two_mul_padding_lt
    unfold ScalarConfig.innerSize
    omega
  bucketCount := k.bucketCount_eq_buckets
  fits := by
    intro h
    rw [k.bucketCount_of_line h]
    exact k.bucketOf_add_width_le h k.high

end ScalarCodec

end CalendarCode
