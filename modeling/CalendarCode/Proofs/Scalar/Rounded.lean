import CalendarCode.Proofs.Arith.Rounding
import CalendarCode.Proofs.Scalar.Overlap

/-!
This module contains that rounding does not cost a codec any active position, if the codec is not
too large. On the line from zero to one there are seven roundings between the last position and the
end of the last run. Each of them moves a position by a share of the number of positions, and
together by less than the half step that is left; that is so for up to `2 ^ 49` positions.
-/

namespace CalendarCode.ScalarCodec

open Arith

variable {α : Type} [Arith α] {value : α → Rat} {k : ScalarCodec α}

structure IsUnitLine (k : ScalarCodec α) : Prop where
  periodic : k.periodic = false
  low : k.low = ofNat 0
  high : k.high = ofNat 1
  size : k.size ≤ 2 ^ 49

theorem value_radius_pos (hα : Rounds value) (k : ScalarCodec α) : 0 < value k.radius := by
  obtain ⟨hzero, hvalue⟩ := hα.ofNat (n := 0) (by norm_num)
  have hpos := (hα.lt_iff _ _ hzero k.radius_finite).mp k.radius_pos
  rw [hvalue] at hpos
  exact_mod_cast hpos

def extent (k : ScalarCodec α) : α :=
  ofNat k.width * (k.range / k.radius) + ofNat 2 * ofNat k.padding

theorem extent_le_size (hα : Rounds value) (hsize : k.size ≤ 2 ^ 49) :
    isFinite k.extent = true ∧ value k.extent ≤ k.size := by
  have hpos := k.size_pos
  have hceil : k.size = Word.saturate (ceil k.extent) := rfl
  unfold Word.saturate at hceil
  have hceil : ceil k.extent = k.size := by omega
  obtain ⟨hfinite, hvalue⟩ := hα.ceil k.extent (by omega) (by omega)
  refine ⟨hfinite, ?_⟩
  rw [← hceil]
  have hle := Int.le_ceil (value k.extent)
  rw [← hvalue] at hle
  exact_mod_cast hle

structure Steps (k : ScalarCodec α) (value : α → Rat) : Prop where
  resolution : IsRounding value k.resolution (value k.radius / k.width)
  range : IsRounding value k.range (1 + value k.resolution)
  quotient : IsRounding value (k.range / k.radius) (value k.range / value k.radius)
  product : IsRounding value (ofNat k.width * (k.range / k.radius))
    (k.width * value (k.range / k.radius))
  extent : IsRounding value k.extent
    (value (ofNat k.width * (k.range / k.radius)) + (k.width - 1 : Nat))

theorem IsUnitLine.steps (hα : Rounds value) (hk : k.IsUnitLine) : k.Steps value := by
  have hsize := hk.size
  have hroom := k.width_lt_size
  have hodd := k.width_odd
  have hradius := value_radius_pos hα k
  have hpadding : k.padding = k.halfwidth := by simp [ScalarConfig.padding, hk.periodic]
  have hhalf : 2 * k.halfwidth = k.width - 1 := by
    unfold ScalarConfig.halfwidth
    omega
  obtain ⟨hwidth, hwidthval⟩ := hα.ofNat (n := k.width) (by omega)
  obtain ⟨htwo, htwoval⟩ := hα.ofNat (n := 2) (by norm_num)
  obtain ⟨hpad, hpadval⟩ := hα.ofNat (n := k.padding) (by omega)
  obtain ⟨hdouble, hdoubleval⟩ := hα.ofNat (n := k.width - 1) (by omega)
  obtain ⟨hone, honeval⟩ := hα.ofNat (n := 1) (by norm_num)
  obtain ⟨hzero, hzeroval⟩ := hα.ofNat (n := 0) (by norm_num)
  -- a finite number comes from finite numbers only
  have hextent := (extent_le_size hα hsize).1
  obtain ⟨hproduct, hpads⟩ := hα.isFinite_of_add _ _ hextent
  have hquotient := (hα.isFinite_of_mul _ _ hproduct).2
  have hrange := hα.isFinite_of_div _ _ hquotient
  have hrangeeq : k.range = k.span + k.resolution := by simp [ScalarConfig.range, hk.periodic]
  rw [hrangeeq] at hrange
  obtain ⟨hspan, hresolution⟩ := hα.isFinite_of_add _ _ hrange
  have hspanval : value k.span = 1 := by
    have hsub := hα.sub_of_zero k.high_finite k.low_finite (by rw [hk.low, hzeroval, Nat.cast_zero])
      (by rw [hk.high, honeval]; norm_num)
    rw [hk.high, honeval, Nat.cast_one] at hsub
    unfold ScalarConfig.span
    rw [hk.high]
    exact hsub.2
  have hpadsval : value (ofNat 2 * ofNat k.padding) = (k.width - 1 : Nat) := by
    have hround := hα.mul _ _ htwo hpad (.inl hpads)
    rw [htwoval, hpadval] at hround
    have hexact : (2 : Rat) * k.padding = (k.width - 1 : Nat) := by
      rw [← hhalf]
      rw [hpadding]
      push_cast
      ring
    rw [hround.exact (ofNat (k.width - 1)) hdouble (by rw [hdoubleval]; exact_mod_cast hexact.symm)]
    exact_mod_cast hexact
  constructor
  . have hround := hα.div _ _ k.radius_finite hwidth
      (by rw [hwidthval]; exact_mod_cast k.width_pos.ne') (.inl hresolution)
    rw [hwidthval] at hround
    exact hround
  . have hround := hα.add _ _ hspan hresolution (.inl hrange)
    rw [hspanval] at hround
    rw [hrangeeq]
    exact hround
  . rw [hrangeeq] at hquotient ⊢
    exact hα.div _ _ hrange k.radius_finite hradius.ne' (.inl hquotient)
  . have hround := hα.mul _ _ hwidth hquotient (.inl hproduct)
    rw [hwidthval] at hround
    exact hround
  . have hround := hα.add _ _ hproduct hpads (.inl hextent)
    rw [hpadsval] at hround
    exact hround

theorem Steps.share_le (hα : Rounds value) (hk : k.IsUnitLine) (h : k.Steps value) :
    k.width / value k.radius ≤ 2 ^ 55 := by
  have hradius := value_radius_pos hα k
  have hpos : (0 : Rat) < 1 / value k.radius := by positivity
  have hwidth : (0 : Rat) < k.width := by exact_mod_cast k.width_pos
  have htiny : underflow ≤ 1 / 2 ^ 100 := le_trans underflow_le (by norm_num)
  have hextent := (extent_le_size hα hk.size).2
  have hsize : (k.size : Rat) ≤ 2 ^ 49 := by exact_mod_cast hk.size
  have hroom : (k.width : Rat) ≤ k.size := by exact_mod_cast k.width_lt_size.le
  -- already half of each result is enough here
  have hresolution : 0 ≤ value k.resolution := h.resolution.nonneg (by positivity)
  have hrange := h.range.le_value (by linarith)
  have hrange : 1 / 4 ≤ value k.range := by linarith
  have hquotient := h.quotient.le_value (by positivity)
  have hquotient : 1 / value k.radius / 8 - underflow ≤ value (k.range / k.radius) := by
    have := mul_le_mul_of_nonneg_right hrange hpos.le
    rw [mul_one_div (value k.range)] at this
    linarith
  have hnonneg := h.quotient.nonneg (by positivity)
  have hproduct := h.product.le_value (by positivity)
  have hproduct : k.width / value k.radius / 16 - k.width * underflow
      ≤ value (ofNat k.width * (k.range / k.radius)) + underflow := by
    have := mul_le_mul_of_nonneg_left hquotient hwidth.le
    have hshare : (k.width : Rat) * (1 / value k.radius / 8 - underflow)
        = k.width / value k.radius / 8 - k.width * underflow := by ring
    have := underflow_pos
    have : 0 < (k.width : Rat) * underflow := by positivity
    linarith
  have hpads : (0 : Rat) ≤ (k.width - 1 : Nat) := by positivity
  have hnonneg := h.product.nonneg (by positivity)
  have hsum := h.extent.le_value (by linarith)
  have hsmall : (k.width : Rat) * underflow ≤ 1 := by
    have := underflow_pos
    calc (k.width : Rat) * underflow ≤ 2 ^ 49 * (1 / 2 ^ 100) := by gcongr; linarith
      _ ≤ 1 := by norm_num
  linarith

theorem half_le_keep : (1 : Rat) / 2 ≤ 1 - roundoff := by
  norm_num [roundoff]

/-- What five roundings leave of the steps of a line together with a run. -/
theorem shrunk_le_of_le {keep width radius resolution range quotient product extent : Rat}
    (hkeep : 0 < keep) (hone : keep ≤ 1) (hwidth : 1 ≤ width) (hradius : 0 < radius)
    (hresolution : keep * (radius / width) ≤ resolution) (hrange : keep * (1 + resolution) ≤ range)
    (hquotient : keep * (range / radius) ≤ quotient)
    (hproduct : keep * (width * quotient) ≤ product)
    (hextent : keep * (product + (width - 1)) ≤ extent) :
    keep ^ 5 * (1 / resolution + width) ≤ extent := by
  have hpos : 0 < resolution := lt_of_lt_of_le (by positivity) hresolution
  have hshare : keep / resolution ≤ width / radius := by
    rw [div_le_div_iff₀ hpos hradius]
    rw [mul_comm width]
    rw [← div_le_iff₀ (by linarith)]
    rw [← mul_div_assoc] at hresolution
    exact hresolution
  have hproduct : keep ^ 4 * (1 / resolution + 1) ≤ product := by
    calc keep ^ 4 * (1 / resolution + 1)
        = keep ^ 3 * (1 + resolution) * (keep / resolution) := by field_simp
      _ ≤ keep ^ 3 * (1 + resolution) * (width / radius) := by gcongr
      _ = keep ^ 2 * (width / radius) * (keep * (1 + resolution)) := by ring
      _ ≤ keep ^ 2 * (width / radius) * range := by gcongr
      _ = keep * width * (keep * (range / radius)) := by ring
      _ ≤ keep * width * quotient := by gcongr
      _ ≤ product := by linarith
  have hpow : keep ^ 4 ≤ 1 := pow_le_one₀ hkeep.le hone
  calc keep ^ 5 * (1 / resolution + width)
      = keep * (keep ^ 4 * (1 / resolution + 1) + keep ^ 4 * (width - 1)) := by ring
    _ ≤ keep * (product + 1 * (width - 1)) := by gcongr
    _ ≤ extent := by linarith

theorem Steps.positions_le (hα : Rounds value) (hk : k.IsUnitLine) (h : k.Steps value) :
    1 / 2 ^ 56 ≤ value k.resolution ∧
      (1 - roundoff) ^ 5 * (1 / value k.resolution + k.width) ≤ k.size := by
  have hradius := value_radius_pos hα k
  have hwidth : (1 : Rat) ≤ k.width := by exact_mod_cast k.width_pos
  have hsize : (k.size : Rat) ≤ 2 ^ 49 := by exact_mod_cast hk.size
  have hroom : (k.width : Rat) ≤ k.size := by exact_mod_cast k.width_lt_size.le
  have hshare := h.share_le hα hk
  have hextent := (extent_le_size hα hk.size).2
  have hhalf := half_le_keep
  have hone : 1 - roundoff ≤ 1 := by norm_num [roundoff]
  have hpads : ((k.width - 1 : Nat) : Rat) = k.width - 1 := by
    rw [Nat.cast_sub k.width_pos]
    rw [Nat.cast_one]
  have hinv : 1 / 2 ^ 55 ≤ value k.radius / k.width := by
    rw [div_le_iff₀ (by linarith)] at hshare
    rw [div_le_div_iff₀ (by positivity) (by linarith)]
    linarith
  obtain ⟨hresolution, -⟩ := h.resolution.bounds (le_trans (by norm_num) hinv)
  have hlow : 1 / 2 ^ 56 ≤ value k.resolution := by
    calc (1 : Rat) / 2 ^ 56 = 1 / 2 * (1 / 2 ^ 55) := by norm_num
      _ ≤ (1 - roundoff) * (value k.radius / k.width) := by gcongr
      _ ≤ value k.resolution := hresolution
  obtain ⟨hrange, -⟩ := h.range.bounds (by linarith)
  have hcells : 1 / 2 ^ 51 ≤ value k.range / value k.radius := by
    calc (1 : Rat) / 2 ^ 51 = 1 / 2 * (1 / 2 * (1 / 2 ^ 49)) := by norm_num
      _ ≤ (1 - roundoff) * ((1 - roundoff) * (1 / k.width)) := by gcongr; linarith
      _ = (1 - roundoff) * ((1 - roundoff) * (value k.radius / k.width)) / value k.radius := by
        field_simp
      _ ≤ (1 - roundoff) * (1 + value k.resolution) / value k.radius := by gcongr; linarith
      _ ≤ value k.range / value k.radius := by gcongr
  obtain ⟨hquotient, -⟩ := h.quotient.bounds (le_trans (by norm_num) hcells)
  have hrow : 1 / 2 ^ 52 ≤ k.width * value (k.range / k.radius) := by
    calc (1 : Rat) / 2 ^ 52 = 1 * (1 / 2 * (1 / 2 ^ 51)) := by norm_num
      _ ≤ k.width * ((1 - roundoff) * (value k.range / value k.radius)) := by gcongr
      _ ≤ k.width * value (k.range / k.radius) := by gcongr
  obtain ⟨hproduct, -⟩ := h.product.bounds (le_trans (by norm_num) hrow)
  have hsum : 1 / 2 ^ 53 ≤ value (ofNat k.width * (k.range / k.radius)) + (k.width - 1 : Nat) := by
    calc (1 : Rat) / 2 ^ 53 = 1 / 2 * (1 / 2 ^ 52) := by norm_num
      _ ≤ (1 - roundoff) * (k.width * value (k.range / k.radius)) := by gcongr
      _ ≤ value (ofNat k.width * (k.range / k.radius)) := hproduct
      _ ≤ _ := le_add_of_nonneg_right (by positivity)
  obtain ⟨hsum, -⟩ := h.extent.bounds (le_trans (by norm_num) hsum)
  rw [hpads] at hsum
  refine ⟨hlow, le_trans ?_ hextent⟩
  exact shrunk_le_of_le (by linarith) hone hwidth hradius hresolution hrange hquotient hproduct hsum

def offset (k : ScalarCodec α) (v : α) : α :=
  (v - k.low + k.resolution / ofNat 2) / k.resolution

namespace IsUnitLine

theorem le_resolution (hα : Rounds value) (hk : k.IsUnitLine) : 1 / 2 ^ 56 ≤ value k.resolution :=
  ((hk.steps hα).positions_le hα hk).1

theorem resolution_pos (hα : Rounds value) (hk : k.IsUnitLine) : 0 < value k.resolution :=
  lt_of_lt_of_le (by norm_num) (hk.le_resolution hα)

theorem isRounding_half (hα : Rounds value) (hk : k.IsUnitLine) :
    IsRounding value (k.resolution / ofNat 2) (value k.resolution / 2) := by
  have hres := (hk.steps hα).resolution.isFinite
  have hpos := hk.resolution_pos hα
  obtain ⟨htwo, htwoval⟩ := hα.ofNat (n := 2) (by norm_num)
  have hhalf := hα.div _ _ hres htwo (by rw [htwoval]; norm_num)
  rw [htwoval] at hhalf
  push_cast at hhalf
  apply hhalf
  refine .inr ⟨k.resolution, hres, ?_⟩
  rw [abs_of_nonneg (by positivity)]
  linarith

theorem half_bounds (hα : Rounds value) (hk : k.IsUnitLine) :
    value k.resolution / 4 ≤ value (k.resolution / ofNat 2) ∧
      value (k.resolution / ofNat 2) ≤ (1 + roundoff) * (value k.resolution / 2) := by
  have hleast := hk.le_resolution hα
  have hpos := hk.resolution_pos hα
  have hkeep := half_le_keep
  have hbounds := (hk.isRounding_half hα).bounds (by linarith)
  refine ⟨?_, hbounds.2⟩
  calc value k.resolution / 4 = 1 / 2 * (value k.resolution / 2) := by ring
    _ ≤ (1 - roundoff) * (value k.resolution / 2) := by gcongr
    _ ≤ value (k.resolution / ofNat 2) := hbounds.1

variable {v : α}

theorem isRounding_sum (hα : Rounds value) (hk : k.IsUnitLine) (hv : isFinite v = true)
    (hlow : 0 ≤ value v) (hhigh : value v ≤ 1) :
    IsRounding value (v - k.low + k.resolution / ofNat 2)
      (value v + value (k.resolution / ofNat 2)) := by
  have hpos := hk.resolution_pos hα
  obtain ⟨hquarter, hhalf⟩ := hk.half_bounds hα
  obtain ⟨hzero, hzeroval⟩ := hα.ofNat (n := 0) (by norm_num)
  -- the difference needs no rounding, because the line begins at zero
  obtain ⟨hdiff, hdiffval⟩ := hα.sub_of_zero hv k.low_finite
    (by rw [hk.low, hzeroval, Nat.cast_zero]) hlow
  have hsum := hα.add _ _ hdiff (hk.isRounding_half hα).isFinite
  rw [hdiffval] at hsum
  have hslack : 1 + roundoff ≤ 3 / 2 := by norm_num [roundoff]
  have hsumle : value v + value (k.resolution / ofNat 2)
      ≤ 1 + 3 / 2 * (value k.resolution / 2) := by
    apply add_le_add hhigh
    exact le_trans hhalf (by gcongr)
  rcases le_total (value k.resolution) 4 with hle | hle
  . apply hsum.of_abs_le hα
    rw [abs_of_nonneg (by linarith)]
    linarith
  . apply hsum
    refine .inr ⟨k.resolution, (hk.steps hα).resolution.isFinite, ?_⟩
    rw [abs_of_nonneg (by linarith)]
    linarith

theorem share_bounds (hα : Rounds value) (hk : k.IsUnitLine) (hv : isFinite v = true)
    (hlow : 0 ≤ value v) (hhigh : value v ≤ 1) :
    1 / 8 ≤ value (v - k.low + k.resolution / ofNat 2) / value k.resolution ∧
      value (v - k.low + k.resolution / ofNat 2) / value k.resolution
        ≤ (1 + roundoff) * (1 / value k.resolution) + (1 + roundoff) ^ 2 / 2 := by
  have hpos := hk.resolution_pos hα
  have hleast := hk.le_resolution hα
  have hkeep := half_le_keep
  have hgrow : 0 ≤ roundoff := by norm_num [roundoff]
  obtain ⟨hquarter, hhalf⟩ := hk.half_bounds hα
  have hbounds := (hk.isRounding_sum hα hv hlow hhigh).bounds (by linarith)
  constructor
  . rw [le_div_iff₀ hpos]
    calc 1 / 8 * value k.resolution = 1 / 2 * (value k.resolution / 4) := by ring
      _ ≤ (1 - roundoff) * (value v + value (k.resolution / ofNat 2)) := by gcongr; linarith
      _ ≤ _ := hbounds.1
  . rw [div_le_iff₀ hpos]
    calc value (v - k.low + k.resolution / ofNat 2)
        ≤ (1 + roundoff) * (value v + value (k.resolution / ofNat 2)) := hbounds.2
      _ ≤ (1 + roundoff) * (1 + (1 + roundoff) * (value k.resolution / 2)) := by gcongr
      _ = _ := by field_simp

theorem offset_le (hα : Rounds value) (hk : k.IsUnitLine) (hv : isFinite v = true)
    (hlow : 0 ≤ value v) (hhigh : value v ≤ 1) :
    isFinite (k.offset v) = true ∧ 0 ≤ value (k.offset v) ∧ value (k.offset v)
      ≤ (1 + roundoff) ^ 2 * (1 / value k.resolution) + (1 + roundoff) ^ 3 / 2 := by
  have hres := (hk.steps hα).resolution.isFinite
  have hpos := hk.resolution_pos hα
  have hsum := hk.isRounding_sum hα hv hlow hhigh
  obtain ⟨hleast, hmost⟩ := hk.share_bounds hα hv hlow hhigh
  have hgrow : 0 ≤ roundoff := by norm_num [roundoff]
  have hslack : 1 + roundoff ≤ 2 := by norm_num [roundoff]
  have hinv : 1 / value k.resolution ≤ 2 ^ 56 := by
    rw [div_le_comm₀ hpos (by norm_num)]
    exact hk.le_resolution hα
  have hword : value (v - k.low + k.resolution / ofNat 2) / value k.resolution ≤ 2 ^ 64 := by
    calc _ ≤ 2 * 2 ^ 56 + 2 ^ 2 / 2 := le_trans hmost (by gcongr)
      _ ≤ 2 ^ 64 := by norm_num
  have hquot := hα.div _ _ hsum.isFinite hres hpos.ne'
  have hquot := hquot.of_abs_le hα (by rw [abs_of_nonneg (by linarith)]; exact hword)
  refine ⟨hquot.isFinite, hquot.nonneg (by linarith), ?_⟩
  calc value (k.offset v)
      ≤ (1 + roundoff) * (value (v - k.low + k.resolution / ofNat 2) / value k.resolution) :=
        (hquot.bounds (by linarith)).2
    _ ≤ (1 + roundoff) * ((1 + roundoff) * (1 / value k.resolution) + (1 + roundoff) ^ 2 / 2) := by
        gcongr
    _ = (1 + roundoff) ^ 2 * (1 / value k.resolution) + (1 + roundoff) ^ 3 / 2 := by ring

theorem bound_mem (hα : Rounds value) (hk : k.IsUnitLine) (hv : isFinite v = true) :
    isFinite (k.bound v) = true ∧ 0 ≤ value (k.bound v) ∧ value (k.bound v) ≤ 1 := by
  obtain ⟨hone, honeval⟩ := hα.ofNat (n := 1) (by norm_num)
  obtain ⟨hzero, hzeroval⟩ := hα.ofNat (n := 0) (by norm_num)
  have hbound : k.bound v = clamp (ofNat 0) (ofNat 1) v := by
    simp [ScalarConfig.bound, hk.periodic, hk.low, hk.high]
  rw [hbound]
  unfold clamp
  split
  . rw [hzeroval]
    exact ⟨hzero, by norm_num, by norm_num⟩
  . next hlow =>
    rw [hα.lt_iff _ _ hv hzero, hzeroval, Nat.cast_zero, not_lt] at hlow
    split
    . rw [honeval]
      exact ⟨hone, by norm_num, by norm_num⟩
    . next hhigh =>
      rw [hα.lt_iff _ _ hone hv, honeval, Nat.cast_one, not_lt] at hhigh
      exact ⟨hv, hlow, hhigh⟩

/-- The last run ends within the line: seven roundings move it by less than half a position. -/
theorem floor_offset_add_width_le (hα : Rounds value) (hk : k.IsUnitLine) (hv : isFinite v = true)
    (hlow : 0 ≤ value v) (hhigh : value v ≤ 1) :
    ⌊value (k.offset v)⌋ + k.width ≤ k.size := by
  have hfloor := Int.floor_le (value (k.offset v))
  have hoffset := (hk.offset_le hα hv hlow hhigh).2.2
  have hpositions := ((hk.steps hα).positions_le hα hk).2
  have hsize : (k.size : Rat) ≤ 2 ^ 49 := by exact_mod_cast hk.size
  have hwidth : (1 : Rat) ≤ k.width := by exact_mod_cast k.width_pos
  have hgrow : (1 : Rat) ≤ (1 + roundoff) ^ 2 := by norm_num [roundoff]
  have hfactor : (1 + roundoff) ^ 2 ≤ (1 + 15 / 2 ^ 54) * (1 - roundoff) ^ 5 := by
    norm_num [roundoff]
  have hlast : (1 + roundoff) ^ 3 / 2 < 1 - 15 / 2 ^ 5 := by norm_num [roundoff]
  have hpos : 0 ≤ 1 / value k.resolution := by
    have := hk.resolution_pos hα
    positivity
  have hend : (⌊value (k.offset v)⌋ : Rat) + k.width < k.size + 1 := by
    calc (⌊value (k.offset v)⌋ : Rat) + k.width
        ≤ (1 + roundoff) ^ 2 * (1 / value k.resolution) + (1 + roundoff) ^ 3 / 2 + k.width := by
          linarith
      _ ≤ (1 + roundoff) ^ 2 * (1 / value k.resolution + k.width) + (1 + roundoff) ^ 3 / 2 := by
          nlinarith
      _ ≤ (1 + 15 / 2 ^ 54) * (1 - roundoff) ^ 5 * (1 / value k.resolution + k.width)
            + (1 + roundoff) ^ 3 / 2 := by gcongr
      _ ≤ (1 + 15 / 2 ^ 54) * k.size + (1 + roundoff) ^ 3 / 2 := by
          rw [mul_assoc]
          gcongr
      _ < k.size + 1 := by linarith
  have hend : ⌊value (k.offset v)⌋ + (k.width : Int) < k.size + 1 := by exact_mod_cast hend
  omega

theorem writesRun (hα : Rounds value) (hk : k.IsUnitLine) (hv : isFinite v = true) :
    k.WritesRun v := by
  have hsize := hk.size
  have hhalf := k.width_eq
  obtain ⟨hbound, hlow, hhigh⟩ := hk.bound_mem hα hv
  obtain ⟨hoffset, hnonneg, -⟩ := hk.offset_le hα hbound hlow hhigh
  have hlast := hk.floor_offset_add_width_le hα hbound hlow hhigh
  have hfirst := Int.floor_nonneg.mpr hnonneg
  have htruncate := hα.truncate _ hoffset hnonneg
  have hcenter : k.center (k.bound v) = ⌊value (k.offset (k.bound v))⌋ + k.halfwidth := by
    have hpadding : k.padding = k.halfwidth := by simp [ScalarConfig.padding, hk.periodic]
    unfold ScalarConfig.center
    rw [if_neg (by rw [hk.periodic]; exact Bool.false_ne_true)]
    rw [← htruncate] at hlast hfirst ⊢
    rw [hpadding]
    unfold offset at hlast hfirst ⊢
    rw [Word.clamp_of_lt (by omega) (by omega)]
    rw [Word.wrap_of_lt (by omega) (by omega)]
  have hstart : k.start? v = some ⌊value (k.offset (k.bound v))⌋ := by
    unfold ScalarConfig.start?
    rw [if_pos hv]
    rw [hcenter]
    rw [add_sub_cancel_right]
    rw [Word.wrap_of_lt (by omega) (by omega)]
  have hbucket : k.bucket? v = some ⌊value (k.offset (k.bound v))⌋.toNat := by
    unfold bucket?
    rw [hstart]
    simp only [hk.periodic, Option.map_some, Bool.false_eq_true, ↓reduceIte]
    rw [Word.unsigned_of_nonneg hfirst (by omega)]
  exact k.writesRun_of_line hk.periodic hbucket (by omega)

end IsUnitLine

structure IsSmallCircle (k : ScalarCodec α) (turn : Nat) : Prop where
  periodic : k.periodic = true
  low : k.low = ofNat 0
  high : k.high = ofNat turn
  pos : 1 ≤ turn
  small : turn ≤ 366
  size : k.size ≤ 2 ^ 49

namespace IsSmallCircle

variable {turn : Nat}

theorem value_low (hα : Rounds value) (hk : k.IsSmallCircle turn) : value k.low = 0 := by
  rw [hk.low]
  rw [(hα.ofNat (by norm_num)).2]
  norm_num

theorem value_high (hα : Rounds value) (hk : k.IsSmallCircle turn) : value k.high = turn := by
  have := hk.small
  rw [hk.high]
  exact (hα.ofNat (by omega)).2

theorem value_span (hα : Rounds value) (hk : k.IsSmallCircle turn) :
    isFinite k.span = true ∧ value k.span = turn := by
  have hvalue := hk.value_high hα
  rw [← hvalue]
  apply hα.sub_of_zero k.high_finite k.low_finite (hk.value_low hα)
  rw [hvalue]
  positivity

theorem bound_mem (hα : Rounds value) (hk : k.IsSmallCircle turn) {v : α}
    (hv : isFinite v = true) (hnonneg : 0 ≤ value v) :
    isFinite (k.bound v) = true ∧ 0 ≤ value (k.bound v) ∧ value (k.bound v) < turn := by
  have hpos : (0 : Rat) < turn := by exact_mod_cast hk.pos
  have hlow := hk.value_low hα
  obtain ⟨hspan, hspanval⟩ := hk.value_span hα
  obtain ⟨hdiff, hdiffval⟩ := hα.sub_of_zero hv k.low_finite hlow hnonneg
  obtain ⟨hrest, hrestnonneg, hrestlt⟩ := hα.modulo _ _ hdiff hspan
    (by rw [hdiffval]; exact hnonneg) (by rw [hspanval]; exact hpos)
  obtain ⟨hsum, hsumval⟩ := hα.add_of_zero hrest k.low_finite hlow hrestnonneg
  rw [hspanval] at hrestlt
  have hbound : k.bound v = modulo (v - k.low) k.span + k.low := by
    unfold ScalarConfig.bound
    rw [if_pos hk.periodic]
    apply if_neg
    rw [hα.le_iff _ _ k.high_finite hsum]
    rw [hk.value_high hα]
    rw [hsumval]
    exact not_le.mpr hrestlt
  rw [hbound]
  rw [hsumval]
  exact ⟨hsum, hrestnonneg, hrestlt⟩

theorem center_mem (hα : Rounds value) (hk : k.IsSmallCircle turn) {v : α}
    (hv : isFinite v = true) (hnonneg : 0 ≤ value v) (hlt : value v < turn) :
    0 ≤ k.center v ∧ k.center v ≤ 2 ^ 62 := by
  have hsize := hk.size
  have hpos : (1 : Rat) ≤ turn := by exact_mod_cast hk.pos
  have hsmall : (turn : Rat) ≤ 366 := by exact_mod_cast hk.small
  have hinner : k.innerSize = k.size := by
    simp [ScalarConfig.innerSize, ScalarConfig.padding, hk.periodic]
  have hrange : k.range = k.span := by simp [ScalarConfig.range, hk.periodic]
  obtain ⟨hspan, hspanval⟩ := hk.value_span hα
  obtain ⟨hcount, hcountval⟩ := hα.ofNat (n := k.innerSize) (by omega)
  obtain ⟨hdiff, hdiffval⟩ := hα.sub_of_zero hv k.low_finite (hk.value_low hα) hnonneg
  have hcountle : value (ofNat k.innerSize) ≤ 2 ^ 49 := by
    rw [hcountval]
    rw [hinner]
    exact_mod_cast hsize
  have hcountpos : 0 ≤ value (ofNat k.innerSize) := by
    rw [hcountval]
    positivity
  have hproductle : value v * value (ofNat k.innerSize) ≤ 2 ^ 58 := by
    calc value v * value (ofNat k.innerSize) ≤ 366 * 2 ^ 49 := by gcongr; linarith
      _ ≤ 2 ^ 58 := by norm_num
  have hproduct := hα.mul _ _ hdiff hcount
  rw [hdiffval] at hproduct
  have hproductnonneg := mul_nonneg hnonneg hcountpos
  have hproduct := hproduct.of_abs_le hα (by rw [abs_of_nonneg hproductnonneg]; linarith)
  have hproductval := hproduct.value_le hproductnonneg
  have hproductpos := hproduct.nonneg hproductnonneg
  have hquot := hα.div _ _ hproduct.isFinite hspan (by rw [hspanval]; linarith)
  rw [hspanval] at hquot
  have hquotle : value ((v - k.low) * ofNat k.innerSize) / turn ≤ 2 ^ 60 := by
    calc value ((v - k.low) * ofNat k.innerSize) / turn
        ≤ value ((v - k.low) * ofNat k.innerSize) := div_le_self hproductpos hpos
      _ ≤ 2 ^ 60 := by linarith
  have hquotnonneg : 0 ≤ value ((v - k.low) * ofNat k.innerSize) / turn := by positivity
  have hquot := hquot.of_abs_le hα (by rw [abs_of_nonneg hquotnonneg]; linarith)
  have hvalue := hquot.value_le hquotnonneg
  have hfirst := Int.floor_nonneg.mpr (hquot.nonneg hquotnonneg)
  have hlast : ⌊value ((v - k.low) * ofNat k.innerSize / k.span)⌋ ≤ 2 ^ 62 := by
    apply Int.cast_le (R := Rat).mp
    apply le_trans (Int.floor_le _)
    push_cast
    linarith
  rw [← hα.truncate _ hquot.isFinite (hquot.nonneg hquotnonneg)] at hfirst hlast
  unfold ScalarConfig.center
  rw [if_pos hk.periodic]
  rw [hrange]
  rw [Word.clamp_of_lt (by omega) (by omega)]
  exact ⟨hfirst, hlast⟩

theorem writesRun (hα : Rounds value) (hk : k.IsSmallCircle turn) {v : α}
    (hv : isFinite v = true) (hnonneg : 0 ≤ value v) : k.WritesRun v := by
  have hsize := hk.size
  have hroom := k.width_lt_size
  have hhalf := k.width_eq
  obtain ⟨hbound, hlow, hhigh⟩ := hk.bound_mem hα hv hnonneg
  obtain ⟨hfirst, hlast⟩ := hk.center_mem hα hbound hlow hhigh
  apply k.writesRun_of_circle hk.periodic hv
  rintro ⟨s, hs, hend⟩
  unfold ScalarConfig.start? at hs
  rw [if_pos hv] at hs
  rw [Word.wrap_of_lt (by omega) (by omega)] at hs
  cases hs
  omega

end IsSmallCircle

end CalendarCode.ScalarCodec
