import CalendarCode.Error
import CalendarCode.Scalar.Position

/-!
This module contains scalar codecs: settings that have passed all checks. A codec has an odd number
of active positions, a domain that is not empty, a positive radius, more positions than are active
at once, and room in memory.
-/

namespace CalendarCode

structure ScalarCodec (α : Type) [Arith α] extends ScalarConfig α where
  width_odd : width % 2 = 1
  low_lt_high : low < high
  low_finite : Arith.isFinite low = true
  high_finite : Arith.isFinite high = true
  radius_pos : Arith.ofNat 0 < radius
  radius_finite : Arith.isFinite radius = true
  width_lt_size : width < toScalarConfig.size
  fits : toScalarConfig.Fits

namespace ScalarCodec

variable {α : Type} [Arith α]

def build (c : ScalarConfig α) : Except (ConfigFault α) (ScalarCodec α) :=
  if odd : c.width % 2 = 1 then
    if domain : c.low < c.high ∧ Arith.isFinite c.low = true ∧ Arith.isFinite c.high = true then
      if radius : Arith.ofNat 0 < c.radius ∧ Arith.isFinite c.radius = true then
        if room : c.width < c.size then
          if fits : c.Fits then
            .ok ⟨c, odd, domain.1, domain.2.1, domain.2.2, radius.1, radius.2, room, fits⟩
          else .error .tooLarge
        else .error (.noRoom c.size c.width)
      else .error (.badRadius c.radius)
    else .error (.emptyDomain c.low c.high)
  else .error (.evenWidth c.width)

theorem toScalarConfig_of_build {c : ScalarConfig α} {k : ScalarCodec α} (h : build c = .ok k) :
    k.toScalarConfig = c := by
  unfold build at h
  repeat' split at h
  all_goals simp_all
  rw [← h]

theorem build_toScalarConfig (k : ScalarCodec α) : build k.toScalarConfig = .ok k := by
  simp [build, k.width_odd, k.low_lt_high, k.low_finite, k.high_finite, k.radius_pos,
    k.radius_finite, k.width_lt_size, k.fits]

theorem build_eq_ok_iff {c : ScalarConfig α} {k : ScalarCodec α} :
    build c = .ok k ↔ k.toScalarConfig = c :=
  ⟨toScalarConfig_of_build, fun h => h ▸ build_toScalarConfig k⟩

theorem width_pos (k : ScalarCodec α) : 0 < k.width := by
  have := k.width_odd
  omega

theorem size_pos (k : ScalarCodec α) : 0 < k.size :=
  Nat.zero_lt_of_lt k.width_lt_size

theorem width_eq (k : ScalarCodec α) : k.width = 2 * k.halfwidth + 1 := by
  have := k.width_odd
  simp only [ScalarConfig.halfwidth]
  omega

end ScalarCodec

end CalendarCode
