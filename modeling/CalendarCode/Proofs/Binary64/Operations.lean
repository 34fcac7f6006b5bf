import CalendarCode.Proofs.Binary64.Rounding

/-!
This module contains that the operations on floating point numbers give the exact results, rounded
to the nearest number. Sums and products are known exactly before they are rounded, and quotients up
to the two bits behind the last digit.
-/

namespace CalendarCode.Binary64

open Float.Model
open UnpackedFloat (Sign ExtendedMantissa)

section

variable {u v : UnpackedFloat} {sign : Sign} {m n : Nat} {e f : Int}

theorem apply_eq (sign : Sign) (n : Nat) :
    ((sign.apply n : Int) : Rat) = (sign.apply 1 : Int) * n := by
  cases sign <;> simp [Sign.apply]

theorem valueOf_finite (h : 0 < m) :
    valueOf (.finite sign m e h) = (sign.apply 1 : Int) * (m * 2 ^ e) := by
  have hvalue : valueOf (.finite sign m e h) = (sign.apply m : Int) * 2 ^ e := rfl
  rw [hvalue]
  rw [apply_eq]
  rw [mul_assoc]

theorem valueOf_finite_neg (h : 0 < m) :
    valueOf (.finite (-sign) m e h) = -valueOf (.finite sign m e h) := by
  cases sign with
  | negative =>
    rw [valueOf_negative]
    rw [neg_neg]
    exact valueOf_positive h
  | positive =>
    rw [valueOf_positive]
    exact valueOf_negative h

theorem aligned_eq (sign : Sign) {g : Int} (hg : g ≤ e) :
    ((sign.apply (m <<< (e - g).toNat : Nat) : Int) : Rat) * 2 ^ g
      = (sign.apply 1 : Int) * (m * 2 ^ e) := by
  have hexponent : g = e - (e - g).toNat := by omega
  have hshift := shiftLeft_mul_zpow m (e - g).toNat e
  rw [← hexponent] at hshift
  rw [apply_eq]
  rw [mul_assoc]
  rw [hshift]

theorem roundsTo_add (hu : IsCanonical u) (hv : IsCanonical v) :
    RoundsTo (valueOf u + valueOf v) (UnpackedFloat.add .binary64 u v) := by
  match u, v, hu, hv with
  | .zero s, .zero s', _, _ =>
    rw [valueOf_zero, valueOf_zero, add_zero]
    cases s <;> cases s' <;> exact roundsTo_zero _
  | .zero _, .finite .., _, hv =>
    rw [valueOf_zero, zero_add]
    exact hv.roundsTo
  | .finite .., .zero _, hu, _ =>
    rw [valueOf_zero, add_zero]
    exact hu.roundsTo
  | .finite s m e _, .finite s' n f _, _, _ =>
    have hround := roundsTo_normalize (s.apply (m <<< (e - min e f).toNat : Nat)
      + s'.apply (n <<< (f - min e f).toNat : Nat)) (min e f) .positive
    rw [Int.cast_add, add_mul] at hround
    rw [aligned_eq s (min_le_left e f), aligned_eq s' (min_le_right e f)] at hround
    rw [valueOf_finite, valueOf_finite]
    exact hround

theorem roundsTo_sub (hu : IsCanonical u) (hv : IsCanonical v) :
    RoundsTo (valueOf u - valueOf v) (UnpackedFloat.sub .binary64 u v) := by
  match u, v, hu, hv with
  | .zero s, .zero s', _, _ =>
    rw [valueOf_zero, valueOf_zero, sub_zero]
    cases s <;> cases s' <;> exact roundsTo_zero _
  | .zero _, .finite s n f h, _, hv =>
    have hneg : IsCanonical (.finite (-s) n f h) := hv
    rw [valueOf_zero, zero_sub, ← valueOf_finite_neg]
    exact hneg.roundsTo
  | .finite .., .zero _, hu, _ =>
    rw [valueOf_zero, sub_zero]
    exact hu.roundsTo
  | .finite s m e _, .finite s' n f _, _, _ =>
    have hround := roundsTo_normalize (s.apply (m <<< (e - min e f).toNat : Nat)
      - s'.apply (n <<< (f - min e f).toNat : Nat)) (min e f) .positive
    rw [Int.cast_sub, sub_mul] at hround
    rw [aligned_eq s (min_le_left e f), aligned_eq s' (min_le_right e f)] at hround
    rw [valueOf_finite, valueOf_finite]
    exact hround

theorem apply_mul (s s' : Sign) : (s * s').apply 1 = s.apply 1 * s'.apply 1 := by
  cases s <;> cases s' <;> rfl

theorem apply_div (s s' : Sign) : (s / s').apply 1 = s.apply 1 * s'.apply 1 := by
  cases s <;> cases s' <;> rfl

theorem inv_apply (s : Sign) : (((s.apply 1 : Int) : Rat))⁻¹ = (s.apply 1 : Int) := by
  cases s <;> norm_num [Sign.apply]

theorem roundsTo_mul (hu : IsCanonical u) (hv : IsCanonical v) :
    RoundsTo (valueOf u * valueOf v) (UnpackedFloat.mul .binary64 u v) := by
  match u, v, hu, hv with
  | .zero s, .zero s', _, _ =>
    rw [valueOf_zero, zero_mul]
    exact roundsTo_zero (s * s')
  | .zero s, .finite s' .., _, _ =>
    rw [valueOf_zero, zero_mul]
    exact roundsTo_zero (s * s')
  | .finite s .., .zero s', _, _ =>
    rw [valueOf_zero, mul_zero]
    exact roundsTo_zero (s * s')
  | .finite s m e hm, .finite s' n f hn, hu, hv =>
    have henough : 52 ≤ (m * n).log2 ∨ e + f ≤ -1074 := by
      obtain ⟨-, -, hfull⟩ := hu
      obtain ⟨-, -, hfull'⟩ := hv
      have hpos : m * n ≠ 0 := (Nat.mul_pos hm hn).ne'
      rcases hfull with hleast | hfull
      . rcases hfull' with hleast' | hfull'
        . right
          omega
        . left
          exact (Nat.le_log2 hpos).mpr (le_trans hfull' (Nat.le_mul_of_pos_left n hm))
      . left
        exact (Nat.le_log2 hpos).mpr (le_trans hfull (Nat.le_mul_of_pos_right m hn))
    have hproduct : valueOf (.finite s m e hm) * valueOf (.finite s' n f hn)
        = ((s * s').apply 1 : Int) * ((m * n : Nat) * 2 ^ (e + f)) := by
      rw [valueOf_finite, valueOf_finite, apply_mul, Int.cast_mul, Nat.cast_mul]
      rw [zpow_add₀ (by norm_num)]
      ring
    rw [hproduct]
    exact roundsTo_roundWithAccuracy (represents_exact (m * n)) henough (s * s')

theorem represents_quotient (m : Nat) (hn : 0 < n) :
    Represents (.ofMantissaAndAccuracy (m / n) (UnpackedFloat.accuracyOfFraction (m % n) n))
      ((m : Rat) / n) := by
  have hpos : (0 : Rat) < n := by exact_mod_cast hn
  have hsplit : (m : Rat) / n = (m / n : Nat) + ((m % n : Nat) : Rat) / n := by
    rw [eq_comm]
    rw [← mul_right_cancel_iff_of_pos hpos]
    rw [add_mul]
    rw [div_mul_cancel₀ _ hpos.ne']
    rw [div_mul_cancel₀ _ hpos.ne']
    exact_mod_cast Nat.div_add_mod' m n
  have hlt : ((m % n : Nat) : Rat) / n < 1 := by
    rw [div_lt_one hpos]
    exact_mod_cast Nat.mod_lt m hn
  rw [hsplit]
  generalize m / n = q
  generalize m % n = r at hlt
  unfold UnpackedFloat.accuracyOfFraction
  split
  . next hzero =>
    rw [hzero]
    rw [Nat.cast_zero, zero_div, add_zero]
    exact represents_exact q
  . next hne =>
    have hrest : (0 : Rat) < r / n := by
      have : (0 : Rat) < r := by exact_mod_cast Nat.pos_of_ne_zero hne
      positivity
    have hdouble : (2 : Rat) * (r / n) = (2 * r : Nat) / n := by
      push_cast
      ring
    rcases lt_trichotomy (2 * r) n with hless | heq | hmore
    . have hhalf : (2 : Rat) * (r / n) < 1 := by
        rw [hdouble, div_lt_one hpos]
        exact_mod_cast hless
      rw [compare_lt_iff_lt.mpr hless]
      simp [Represents, halves, ExtendedMantissa.ofMantissaAndAccuracy]
      constructor <;> linarith
    . have hhalf : (2 : Rat) * (r / n) = 1 := by
        rw [hdouble, heq]
        exact div_self hpos.ne'
      rw [compare_eq_iff_eq.mpr heq]
      simp [Represents, halves, ExtendedMantissa.ofMantissaAndAccuracy]
      linarith
    . have hhalf : 1 < (2 : Rat) * (r / n) := by
        rw [hdouble, one_lt_div hpos]
        exact_mod_cast hmore
      rw [compare_gt_iff_gt.mpr hmore]
      simp [Represents, halves, ExtendedMantissa.ofMantissaAndAccuracy]
      constructor <;> linarith

theorem divCore_eq {k : Nat} {t : Int}
    (ht : min (e - f) (max (m.log2 + 1 + e - (n.log2 + 1 + f) - 53) (-1074)) = t)
    (hk : t + k = e - f) : UnpackedFloat.divCore .binary64 m e n f
      = (m <<< k / n, t, UnpackedFloat.accuracyOfFraction (m <<< k % n) n) := by
  have htarget : min (e - f)
      (Format.binary64.targetExponent (totalExponent m e - totalExponent n f)) = t := ht
  have hshift : (e - f - t).toNat = k := by omega
  unfold UnpackedFloat.divCore
  rw [htarget]
  dsimp only
  rw [hshift]

/-- A quotient has fifty-three digits before it is rounded, or it ends at the last place of all. -/
theorem le_log2_quotient {k : Nat} {t : Int} (hm : 0 < m) (hn : 0 < n)
    (ht : min (e - f) (max (m.log2 + 1 + e - (n.log2 + 1 + f) - 53) (-1074)) = t)
    (hk : t + k = e - f) : 52 ≤ ((m <<< k) / n).log2 ∨ t ≤ -1074 := by
  by_cases hleast : t ≤ -1074
  . exact .inr hleast
  . have hlog := log2_shiftLeft hm k
    have hpos : m <<< k ≠ 0 := by
      rw [Nat.shiftLeft_eq]
      positivity
    have hle : 2 ^ 52 * n ≤ m <<< k := by
      calc 2 ^ 52 * n ≤ 2 ^ 52 * 2 ^ (n.log2 + 1) := by
            gcongr
            exact Nat.lt_log2_self.le
        _ = 2 ^ (53 + n.log2) := by
          rw [← pow_add]
          congr 1
          omega
        _ ≤ 2 ^ (m <<< k).log2 := by
          apply Nat.pow_le_pow_right (by norm_num)
          omega
        _ ≤ m <<< k := Nat.log2_self_le hpos
    have hquotient : 2 ^ 52 ≤ (m <<< k) / n := (Nat.le_div_iff_mul_le hn).mpr hle
    left
    apply (Nat.le_log2 _).mpr hquotient
    intro hzero
    rw [hzero] at hquotient
    norm_num at hquotient

theorem roundsTo_div (hu : IsCanonical u) (hv : IsCanonical v) (hne : valueOf v ≠ 0) :
    RoundsTo (valueOf u / valueOf v) (UnpackedFloat.div .binary64 u v) := by
  match u, v, hu, hv with
  | .zero _, .zero _, _, _ => exact absurd valueOf_zero hne
  | .finite .., .zero _, _, _ => exact absurd valueOf_zero hne
  | .zero s, .finite s' .., _, _ =>
    rw [valueOf_zero, zero_div]
    exact roundsTo_zero (s / s')
  | .finite s m e hm, .finite s' n f hn, _, _ =>
    generalize ht : min (e - f) (max (m.log2 + 1 + e - (n.log2 + 1 + f) - 53) (-1074)) = t
    obtain ⟨k, hk⟩ := Int.le.dest (a := t) (b := e - f) (by omega)
    have hdiv : UnpackedFloat.div .binary64 (.finite s m e hm) (.finite s' n f hn)
        = UnpackedFloat.roundWithAccuracy .binary64 (s / s')
          (UnpackedFloat.divCore .binary64 m e n f).1 (UnpackedFloat.divCore .binary64 m e n f).2.1
          (UnpackedFloat.divCore .binary64 m e n f).2.2 := rfl
    have hquotient : valueOf (.finite s m e hm) / valueOf (.finite s' n f hn)
        = ((s / s').apply 1 : Int) * (((m <<< k : Nat) : Rat) / n * 2 ^ t) := by
      have hshift := shiftLeft_mul_zpow m k (t + k)
      rw [add_sub_cancel_right, hk] at hshift
      rw [valueOf_finite, valueOf_finite, apply_div, Int.cast_mul]
      rw [div_eq_mul_inv, mul_inv, inv_apply]
      rw [div_mul_eq_mul_div, hshift]
      rw [zpow_sub₀ (by norm_num)]
      ring
    rw [hdiv]
    rw [divCore_eq ht hk]
    rw [hquotient]
    exact roundsTo_roundWithAccuracy (represents_quotient (m <<< k) hn)
      (le_log2_quotient hm hn ht hk) (s / s')

end

end CalendarCode.Binary64
