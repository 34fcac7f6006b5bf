import CalendarCode.Proofs.Arith.Rounding
import CalendarCode.Proofs.Binary64.Value

/-!
This module contains that floating point numbers are rounded to the nearest one. A number is kept
with the two bits behind its last digit, which say on which side of the middle it lies, and shifting
digits out of it does not change what it stands for.
-/

namespace CalendarCode.Binary64

open Float.Model
open UnpackedFloat (Sign Accuracy ExtendedMantissa)

def halves (em : ExtendedMantissa) : Nat :=
  2 * em.mantissa + em.roundBit.toNat

/-- Whether a mantissa with the two bits behind it stands for a number. -/
def Represents (em : ExtendedMantissa) (x : Rat) : Prop :=
  if em.stickyBit then halves em < 2 * x ∧ 2 * x < halves em + 1 else 2 * x = halves em

/--
Whether `k * 2 ^ t` is closest to a number among the multiples of `2 ^ t`, and the number has
fifty-three digits in front of this place, or fewer at the last place of all.
-/
structure IsNearest (z : Rat) (k t : Int) : Prop where
  least : -1074 ≤ t
  fits : |z / 2 ^ t| < 2 ^ 53
  full : t = -1074 ∨ 2 ^ 52 ≤ |z / 2 ^ t|
  near : |k - z / 2 ^ t| ≤ 1 / 2

/-- Whether a number is rounded to an unpacked one, as if exponents had no upper bound. -/
def RoundsTo (z : Rat) (u : UnpackedFloat) : Prop :=
  IsCanonical u ∧ ∃ k t : Int, IsNearest z k t ∧ valueOf u = k * 2 ^ t

/-- The number `r * 2 ^ t`, where `r` can have one digit too many if it is a power of two. -/
def ofRounded (sign : Sign) (r : Nat) (t : Int) : UnpackedFloat :=
  if h : r = 0 then .zero sign
  else if r < 2 ^ 53 then .finite sign r t (Nat.pos_of_ne_zero h)
  else .finite sign (2 ^ 52) (t + 1) (by decide)

section

variable {em : ExtendedMantissa} {x : Rat}

theorem halves_shiftRightOne (em : ExtendedMantissa) : halves em.shiftRightOne = em.mantissa := by
  unfold halves ExtendedMantissa.shiftRightOne
  rcases Nat.mod_two_eq_zero_or_one em.mantissa with h | h
  . simp [h]
    omega
  . simp [h]
    omega

theorem Represents.bounds (h : Represents em x) : em.mantissa ≤ x ∧ x < em.mantissa + 1 := by
  obtain ⟨m, roundBit, stickyBit⟩ := em
  cases roundBit <;> cases stickyBit <;> simp [Represents, halves] at h ⊢
  . constructor <;> linarith
  . constructor <;> linarith
  . constructor <;> linarith
  . constructor <;> linarith

theorem Represents.shiftRightOne (h : Represents em x) : Represents em.shiftRightOne (x / 2) := by
  unfold Represents
  rw [halves_shiftRightOne]
  obtain ⟨m, roundBit, stickyBit⟩ := em
  cases roundBit <;> cases stickyBit <;>
    simp [Represents, halves, ExtendedMantissa.shiftRightOne] at h ⊢
  . linarith
  . constructor <;> linarith
  . constructor <;> linarith
  . constructor <;> linarith

theorem Represents.shiftRight (h : Represents em x) (n : Nat) :
    Represents (em >>> n) (x / 2 ^ n) := by
  induction n with
  | zero =>
    rw [pow_zero]
    rw [div_one]
    exact h
  | succ n ih =>
    rw [pow_succ]
    rw [← div_div]
    exact ih.shiftRightOne

theorem Represents.abs_roundedMantissa_sub_le (h : Represents em x) :
    |(em.roundedMantissa : Rat) - x| ≤ 1 / 2 := by
  obtain ⟨m, roundBit, stickyBit⟩ := em
  rw [abs_le]
  cases roundBit <;> cases stickyBit <;>
    simp [Represents, halves, ExtendedMantissa.roundedMantissa, ExtendedMantissa.accuracy,
      Accuracy.roundToNearestEven] at h ⊢
  . constructor <;> linarith
  . constructor <;> linarith
  . rcases Nat.mod_two_eq_zero_or_one m with hm | hm
    . rw [hm]
      push_cast
      constructor <;> linarith
    . rw [hm]
      push_cast
      constructor <;> linarith
  . constructor <;> linarith

end

section

variable {sign : Sign} {m : Nat} {e : Int} {a : Accuracy} {em : ExtendedMantissa} {x : Rat}

theorem targetExponent_eq (m : Nat) (e : Int) :
    Format.binary64.targetExponent (totalExponent m e) = max (m.log2 + 1 + e - 53) (-1074) := rfl

theorem shiftToTargetExponent_of_lt (hm : m < 2 ^ 53) (he : -1074 ≤ e) :
    UnpackedFloat.shiftToTargetExponent .binary64 m e .exact = (⟨m, false, false⟩, e) := by
  have hlog : m.log2 ≤ 52 := by
    by_cases hzero : m = 0
    . simp [hzero]
    . exact Nat.le_of_lt_succ ((Nat.log2_lt hzero).mpr hm)
  have hshift : (Format.binary64.targetExponent (totalExponent m e) - e).toNat = 0 := by
    rw [targetExponent_eq]
    omega
  unfold UnpackedFloat.shiftToTargetExponent UnpackedFloat.shiftToExponent
  dsimp only
  rw [hshift]
  rw [Nat.cast_zero, add_zero]
  rfl

theorem shiftToTargetExponent_two_pow (he : -1074 ≤ e) :
    UnpackedFloat.shiftToTargetExponent .binary64 (2 ^ 53) e .exact
      = (⟨2 ^ 52, false, false⟩, e + 1) := by
  have hshift : (Format.binary64.targetExponent (totalExponent (2 ^ 53) e) - e).toNat = 1 := by
    rw [targetExponent_eq]
    rw [Nat.log2_two_pow]
    omega
  unfold UnpackedFloat.shiftToTargetExponent UnpackedFloat.shiftToExponent
  dsimp only
  rw [hshift]
  rfl

theorem roundWithAccuracy_of_shift {em : ExtendedMantissa} {t : Int} (ht : -1074 ≤ t)
    (hshift : UnpackedFloat.shiftToTargetExponent .binary64 m e a = (em, t))
    (hr : em.roundedMantissa ≤ 2 ^ 53) :
    UnpackedFloat.roundWithAccuracy .binary64 sign m e a
      = ofRounded sign em.roundedMantissa t := by
  unfold UnpackedFloat.roundWithAccuracy ofRounded
  rw [hshift]
  dsimp only
  rcases Nat.lt_or_eq_of_le hr with hlt | heq
  . rw [shiftToTargetExponent_of_lt hlt ht]
    simp only [if_pos hlt]
  . rw [heq]
    rw [shiftToTargetExponent_two_pow ht]
    rfl

theorem IsNearest.neg {z : Rat} {k t : Int} (h : IsNearest z k t) : IsNearest (-z) (-k) t where
  least := h.least
  fits := by
    rw [neg_div, abs_neg]
    exact h.fits
  full := by
    rw [neg_div, abs_neg]
    exact h.full
  near := by
    rw [neg_div, Int.cast_neg, neg_sub_neg, abs_sub_comm]
    exact h.near

theorem IsNearest.apply {z : Rat} {r : Nat} {t : Int} (h : IsNearest z r t) (sign : Sign) :
    IsNearest ((sign.apply 1 : Int) * z) (sign.apply r) t := by
  cases sign with
  | negative => simpa [Sign.apply] using h.neg
  | positive => simpa [Sign.apply] using h

theorem mantissa_ofMantissaAndAccuracy (m : Nat) (a : Accuracy) :
    (ExtendedMantissa.ofMantissaAndAccuracy m a).mantissa = m := by
  match a with
  | .exact => rfl
  | .inexact .lt => rfl
  | .inexact .eq => rfl
  | .inexact .gt => rfl

theorem IsNearest.le_two_pow {z : Rat} {k t : Int} (h : IsNearest z k t) : |k| ≤ 2 ^ 53 := by
  have hfits := abs_lt.mp h.fits
  have hnear := abs_le.mp h.near
  have hlow : -(2 ^ 53 : Int) - 1 < k := by
    have : ((-(2 ^ 53 : Int) - 1 : Int) : Rat) < k := by
      push_cast
      linarith
    exact_mod_cast this
  have hhigh : k < (2 ^ 53 : Int) + 1 := by
    have : (k : Rat) < ((2 ^ 53 : Int) + 1 : Int) := by
      push_cast
      linarith
    exact_mod_cast this
  rw [abs_le]
  omega

theorem IsNearest.le_of_ne {z : Rat} {k t : Int} (h : IsNearest z k t) (ht : t ≠ -1074) :
    2 ^ 52 ≤ |k| := by
  have hfull := h.full.resolve_left ht
  have hnear := h.near
  have hlow : (2 ^ 52 : Rat) - 1 < |(k : Rat)| := by
    have := abs_sub_abs_le_abs_sub (z / 2 ^ t) k
    rw [abs_sub_comm] at this
    linarith
  have hlow : (2 ^ 52 : Int) - 1 < |k| := by exact_mod_cast hlow
  omega

theorem valueOf_ofRounded {r : Nat} {t : Int} (hr : r ≤ 2 ^ 53) :
    valueOf (ofRounded sign r t) = (sign.apply r : Int) * 2 ^ t := by
  unfold ofRounded
  split
  . next h =>
    rw [h]
    rw [valueOf_zero]
    cases sign <;> simp [Sign.apply]
  . split
    . rfl
    . next hlt =>
      have hr : r = 2 ^ 53 := by omega
      rw [hr]
      cases sign with
      | negative =>
        rw [valueOf_negative]
        rw [zpow_add_one₀ (by norm_num)]
        push_cast [Sign.apply]
        ring
      | positive =>
        rw [valueOf_positive]
        rw [zpow_add_one₀ (by norm_num)]
        push_cast [Sign.apply]
        ring

theorem isCanonical_ofRounded {r : Nat} {t : Int} (ht : -1074 ≤ t)
    (hfull : t ≠ -1074 → 2 ^ 52 ≤ r) : IsCanonical (ofRounded sign r t) := by
  unfold ofRounded
  split
  . trivial
  . split
    . next hlt => exact ⟨hlt, ht, by omega⟩
    . exact ⟨by norm_num, by omega, .inr (le_refl _)⟩

theorem IsNearest.roundsTo {z : Rat} {r : Nat} {t : Int} (h : IsNearest z r t) (sign : Sign) :
    RoundsTo ((sign.apply 1 : Int) * z) (ofRounded sign r t) := by
  have hle := h.le_two_pow
  have hfull := h.le_of_ne
  rw [Nat.abs_cast] at hle hfull
  refine ⟨isCanonical_ofRounded h.least (fun ht => ?_), _, t, h.apply sign, valueOf_ofRounded ?_⟩
  . exact_mod_cast hfull ht
  . exact_mod_cast hle

/-- Shifting a number to the place that its size asks for leaves it fifty-three digits. -/
theorem isNearest_of_shift {n : Nat} (hmantissa : m ≤ x ∧ x < m + 1)
    (henough : 52 ≤ m.log2 ∨ e ≤ -1074) (hn : max (m.log2 + 1 + e - 53) (-1074) = e + n)
    (hem : Represents em (x / 2 ^ n)) : IsNearest (x * 2 ^ e) em.roundedMantissa (e + n) := by
  have hnonneg : 0 ≤ x := le_trans (Nat.cast_nonneg m) hmantissa.1
  have hscale : x * 2 ^ e / 2 ^ (e + n) = x / 2 ^ n := by
    rw [zpow_add₀ (by norm_num)]
    rw [zpow_natCast]
    field_simp
  have hhigh : x < 2 ^ (m.log2 + 1) := by
    have : (m : Rat) + 1 ≤ 2 ^ (m.log2 + 1) := by exact_mod_cast Nat.lt_log2_self (n := m)
    linarith
  constructor
  . omega
  . rw [hscale]
    rw [abs_of_nonneg (by positivity)]
    rw [div_lt_iff₀ (by positivity)]
    rw [← pow_add]
    exact lt_of_lt_of_le hhigh (pow_le_pow_right₀ (by norm_num) (by omega))
  . by_cases hleast : e + n = -1074
    . exact .inl hleast
    . right
      have hzero : m ≠ 0 := by
        rintro rfl
        rw [Nat.log2_zero] at henough hn
        omega
      have hlow : (2 : Rat) ^ m.log2 ≤ m := by exact_mod_cast Nat.log2_self_le hzero
      rw [hscale]
      rw [abs_of_nonneg (by positivity)]
      rw [le_div_iff₀ (by positivity)]
      rw [← pow_add]
      apply le_trans (pow_le_pow_right₀ (by norm_num) (by omega)) (le_trans hlow hmantissa.1)
  . rw [hscale]
    exact hem.abs_roundedMantissa_sub_le

theorem roundsTo_roundWithAccuracy (hx : Represents (.ofMantissaAndAccuracy m a) x)
    (henough : 52 ≤ m.log2 ∨ e ≤ -1074) (sign : Sign) :
    RoundsTo ((sign.apply 1 : Int) * (x * 2 ^ e))
      (UnpackedFloat.roundWithAccuracy .binary64 sign m e a) := by
  have hmantissa := hx.bounds
  rw [mantissa_ofMantissaAndAccuracy] at hmantissa
  have htarget := targetExponent_eq m e
  obtain ⟨n, hn⟩ := Int.le.dest (a := e) (b := max (m.log2 + 1 + e - 53) (-1074)) (by omega)
  have hshift : UnpackedFloat.shiftToTargetExponent .binary64 m e a
      = (ExtendedMantissa.ofMantissaAndAccuracy m a >>> n, e + n) := by
    unfold UnpackedFloat.shiftToTargetExponent UnpackedFloat.shiftToExponent
    dsimp only
    rw [htarget]
    rw [← hn]
    rw [add_sub_cancel_left]
    rw [Int.toNat_natCast]
  have hnearest := isNearest_of_shift hmantissa henough hn.symm (hx.shiftRight n)
  have hle := hnearest.le_two_pow
  rw [Nat.abs_cast] at hle
  rw [roundWithAccuracy_of_shift hnearest.least hshift (by exact_mod_cast hle)]
  exact hnearest.roundsTo sign

theorem represents_exact (m : Nat) : Represents (.ofMantissaAndAccuracy m .exact) m := by
  simp [Represents, halves, ExtendedMantissa.ofMantissaAndAccuracy]

theorem log2_shiftLeft (hm : 0 < m) (n : Nat) : (m <<< n).log2 = m.log2 + n := by
  rw [Nat.shiftLeft_eq]
  induction n with
  | zero => simp
  | succ n ih =>
    rw [pow_succ]
    rw [← mul_assoc]
    rw [mul_comm]
    rw [Nat.log2_two_mul (by positivity)]
    rw [ih]
    rfl

theorem shiftLeft_mul_zpow (m n : Nat) (e : Int) :
    ((m <<< n : Nat) : Rat) * 2 ^ (e - n) = m * 2 ^ e := by
  rw [Nat.shiftLeft_eq]
  rw [zpow_sub₀ (by norm_num)]
  rw [zpow_natCast]
  push_cast
  field_simp

theorem roundsTo_zero (sign : Sign) : RoundsTo 0 (.zero sign) := by
  refine ⟨trivial, 0, -1074, ⟨le_refl _, ?_, .inl rfl, ?_⟩, ?_⟩
  . norm_num
  . norm_num
  . norm_num [valueOf]

theorem shiftRight_zero (n : Nat) :
    (⟨0, false, false⟩ : ExtendedMantissa) >>> n = ⟨0, false, false⟩ := by
  induction n with
  | zero => rfl
  | succ n ih =>
    have hsucc : (⟨0, false, false⟩ : ExtendedMantissa) >>> (n + 1)
        = ((⟨0, false, false⟩ : ExtendedMantissa) >>> n).shiftRightOne := rfl
    rw [hsucc]
    rw [ih]
    rfl

theorem round_zero (sign : Sign) (e : Int) :
    UnpackedFloat.round .binary64 sign 0 e = .zero sign := by
  have hleast : -1074 ≤ Format.binary64.targetExponent (totalExponent 0 e) := le_max_right _ _
  unfold UnpackedFloat.round UnpackedFloat.decreaseExponent
  dsimp only
  rw [Nat.zero_shiftLeft]
  generalize hn : (e - Format.binary64.targetExponent (totalExponent 0 e)).toNat = n
  have htarget := targetExponent_eq 0 (e - n)
  rw [Nat.log2_zero] at htarget
  generalize hk : (Format.binary64.targetExponent (totalExponent 0 (e - n)) - (e - n)).toNat = k
  have hshift : UnpackedFloat.shiftToTargetExponent .binary64 0 (e - n) .exact
      = (⟨0, false, false⟩, e - n + k) := by
    rw [← hk]
    rw [← shiftRight_zero]
    rfl
  exact roundWithAccuracy_of_shift (by omega) hshift (by decide)

theorem roundsTo_round (m : Nat) (e : Int) (sign : Sign) :
    RoundsTo ((sign.apply 1 : Int) * (m * 2 ^ e)) (UnpackedFloat.round .binary64 sign m e) := by
  rcases Nat.eq_zero_or_pos m with hm | hm
  . rw [hm]
    rw [round_zero]
    rw [Nat.cast_zero, zero_mul, mul_zero]
    exact roundsTo_zero sign
  . have htarget := targetExponent_eq m e
    unfold UnpackedFloat.round UnpackedFloat.decreaseExponent
    dsimp only
    rw [htarget]
    generalize hn : (e - max (m.log2 + 1 + e - 53) (-1074)).toNat = n
    rw [← shiftLeft_mul_zpow m n e]
    apply roundsTo_roundWithAccuracy (represents_exact _)
    rw [log2_shiftLeft hm]
    omega

theorem roundsTo_normalize (n e : Int) (zeroSign : Sign) :
    RoundsTo (n * 2 ^ e) (UnpackedFloat.normalize .binary64 n e zeroSign) := by
  unfold UnpackedFloat.normalize
  rcases lt_trichotomy n 0 with hlt | heq | hgt
  . rw [compare_lt_iff_lt.mpr hlt]
    have hround := roundsTo_round (-n).toNat e .negative
    have hcast : (((-n).toNat : Nat) : Rat) = -n := by exact_mod_cast Int.toNat_of_nonneg (by omega)
    rw [hcast] at hround
    simpa [Sign.apply] using hround
  . subst heq
    rw [Int.cast_zero, zero_mul]
    exact roundsTo_zero zeroSign
  . rw [compare_gt_iff_gt.mpr hgt]
    have hround := roundsTo_round n.toNat e .positive
    have hcast : ((n.toNat : Nat) : Rat) = n := by exact_mod_cast Int.toNat_of_nonneg (by omega)
    rw [hcast] at hround
    simpa [Sign.apply] using hround

/-- Nothing has to be rounded that has as few digits as a number can have. -/
theorem IsCanonical.roundsTo {u : UnpackedFloat} (h : IsCanonical u) : RoundsTo (valueOf u) u := by
  refine ⟨h, ?_⟩
  cases u with
  | infinity => exact h.elim
  | notANumber => exact h.elim
  | zero sign => exact (roundsTo_zero sign).2
  | finite sign m e hm =>
    have hscale : valueOf (.finite sign m e hm) / 2 ^ e = (sign.apply m : Int) := by
      unfold valueOf
      exact mul_div_cancel_right₀ _ (by positivity)
    have habs : |((sign.apply m : Int) : Rat)| = m := by exact_mod_cast abs_apply sign m
    refine ⟨sign.apply m, e, ⟨h.2.1, ?_, h.2.2.imp_right ?_, ?_⟩, rfl⟩
    . rw [hscale]
      rw [habs]
      exact_mod_cast h.1
    . intro hfull
      rw [hscale]
      rw [habs]
      exact_mod_cast hfull
    . rw [hscale]
      norm_num

end

section

variable {z : Rat} {k t : Int}

theorem IsNearest.abs_sub_le (h : IsNearest z k t) :
    |k * 2 ^ t - z| ≤ |z| / 2 ^ 53 + Arith.underflow := by
  have hpos : (0 : Rat) < 2 ^ t := by positivity
  have hunder := Arith.underflow_pos
  have hscale : (k : Rat) * 2 ^ t - z = (k - z / 2 ^ t) * 2 ^ t := by
    rw [sub_mul]
    rw [div_mul_cancel₀ _ hpos.ne']
  have hhalf : |k * 2 ^ t - z| ≤ 2 ^ t / 2 := by
    rw [hscale]
    rw [abs_mul]
    rw [abs_of_pos hpos]
    linarith [mul_le_mul_of_nonneg_right h.near hpos.le]
  apply le_trans hhalf
  rcases h.full with hleast | hfull
  . have hlast : (2 : Rat) ^ t / 2 = Arith.underflow := by
      unfold Arith.underflow
      rw [hleast]
      rw [div_eq_mul_inv]
      rw [← zpow_sub_one₀ (by norm_num)]
      rw [one_div]
      rw [← zpow_natCast]
      rw [← zpow_neg]
      norm_num
    rw [hlast]
    have : 0 ≤ |z| / 2 ^ 53 := by positivity
    linarith
  . rw [abs_div] at hfull
    rw [abs_of_pos hpos] at hfull
    rw [le_div_iff₀ hpos] at hfull
    linarith

theorem IsNearest.nonneg (h : IsNearest z k t) (hz : 0 ≤ z) : 0 ≤ k := by
  have hnear := abs_le.mp h.near
  have hnonneg : 0 ≤ z / 2 ^ t := by positivity
  have hlow : (-1 : Rat) < k := by linarith
  have hlow : -1 < k := by exact_mod_cast hlow
  omega

theorem IsNearest.le_exponent (h : IsNearest z k t) {m e : Int} (hm : |m| < 2 ^ 53)
    (he : -1074 ≤ e) (hz : z = m * 2 ^ e) : t ≤ e := by
  by_cases hleast : t = -1074
  . omega
  . have hfull := h.full.resolve_left hleast
    have hm : |(m : Rat)| < 2 ^ 53 := by exact_mod_cast hm
    have hscale : z / 2 ^ t = m * 2 ^ (e - t) := by
      rw [hz]
      rw [zpow_sub₀ (by norm_num)]
      rw [mul_div_assoc]
    rw [hscale] at hfull
    rw [abs_mul] at hfull
    rw [abs_of_pos (by positivity : (0 : Rat) < 2 ^ (e - t))] at hfull
    have hlt : (2 : Rat) ^ 52 < 2 ^ 53 * 2 ^ (e - t) :=
      lt_of_le_of_lt hfull (mul_lt_mul_of_pos_right hm (by positivity))
    have hhalf : (2 : Rat) ^ (-1 : Int) < 2 ^ (e - t) := by
      norm_num at hlt ⊢
      linarith
    have := (zpow_lt_zpow_iff_right₀ (by norm_num : (1 : Rat) < 2)).mp hhalf
    omega

/-- A number with as few digits as there is room for is not changed. -/
theorem IsNearest.eq_of_eq_mul (h : IsNearest z k t) {m e : Int} (hm : |m| < 2 ^ 53)
    (he : -1074 ≤ e) (hz : z = m * 2 ^ e) : k * 2 ^ t = z := by
  obtain ⟨n, hn⟩ := Int.le.dest (h.le_exponent hm he hz)
  have hscale : z / 2 ^ t = (m * 2 ^ n : Int) := by
    rw [hz]
    rw [← hn]
    rw [zpow_add₀ (by norm_num)]
    rw [zpow_natCast]
    push_cast
    field_simp
  have hnear := h.near
  rw [hscale] at hnear
  rw [← Int.cast_sub] at hnear
  have hnear : |k - m * 2 ^ n| < 1 := by
    have : |((k - m * 2 ^ n : Int) : Rat)| < 1 := by linarith
    exact_mod_cast this
  have heq := Int.abs_lt_one_iff.mp hnear
  rw [sub_eq_zero.mp heq]
  rw [← hscale]
  exact div_mul_cancel₀ _ (by positivity)

theorem IsNearest.exponent_le (h : IsNearest z k t) (hz : |z| ≤ largest) : t ≤ 971 := by
  unfold largest at hz
  by_contra! hlarge
  have hpos : (0 : Rat) < 2 ^ t := by positivity
  have hfull := h.full.resolve_left (by omega)
  rw [abs_div] at hfull
  rw [abs_of_pos hpos] at hfull
  rw [le_div_iff₀ hpos] at hfull
  have htop : (2 : Rat) ^ (971 + 1 : Int) ≤ 2 ^ t := zpow_le_zpow_right₀ (by norm_num) (by omega)
  rw [zpow_add_one₀ (by norm_num)] at htop
  have : (0 : Rat) < 2 ^ (971 : Int) := by positivity
  generalize (2 : Rat) ^ (971 : Int) = top at *
  linarith

theorem IsNearest.abs_lt (h : IsNearest z k t) (hz : |z| ≤ largest) :
    |(k * 2 ^ t : Rat)| < 2 ^ 53 * 2 ^ (971 : Int) := by
  have hpos : (0 : Rat) < 2 ^ t := by positivity
  rw [abs_mul]
  rw [abs_of_pos hpos]
  rcases eq_or_lt_of_le (h.exponent_le hz) with heq | hlt
  . have hfits : |z / 2 ^ t| ≤ 2 ^ 53 - 1 := by
      rw [abs_div]
      rw [abs_of_pos hpos]
      rw [div_le_iff₀ hpos]
      rw [heq]
      exact hz
    have hnear := abs_sub_abs_le_abs_sub (k : Rat) (z / 2 ^ t)
    have hlt : |(k : Rat)| < 2 ^ 53 := by linarith [h.near]
    rw [heq]
    gcongr
  . have hle : |(k : Rat)| ≤ 2 ^ 53 := by exact_mod_cast h.le_two_pow
    calc |(k : Rat)| * 2 ^ t ≤ 2 ^ 53 * 2 ^ t := by gcongr
      _ < 2 ^ 53 * 2 ^ (971 : Int) := by
        gcongr
        norm_num

end

theorem RoundsTo.unpack_pack {u : UnpackedFloat} {z : Rat} (h : RoundsTo z u)
    (hbound : (Float.Model.pack u).isFinite = true ∨ |z| ≤ largest) :
    (Float.Model.pack u).unpack = u := by
  obtain ⟨hu, k, t, hnearest, hvalue⟩ := h
  apply unpack_pack_canonical hu
  apply hbound.imp_right
  intro hle
  rw [hvalue]
  exact hnearest.abs_lt hle

theorem RoundsTo.isFinite_pack {u : UnpackedFloat} {z : Rat} (h : RoundsTo z u)
    (hunpack : (Float.Model.pack u).unpack = u) :
    Arith.isFinite (Float.ofModel (.pack u)) = true := by
  have hfinite : Arith.isFinite (Float.ofModel (.pack u))
      = (Float.Model.pack u).unpack.isFinite := rfl
  rw [hfinite]
  rw [hunpack]
  exact h.1.isFinite

/-- The bits of the number that a result is rounded to hold the result as well as they can. -/
theorem RoundsTo.isRounded {u : UnpackedFloat} {z : Rat} (h : RoundsTo z u) :
    Arith.IsRounded value (Float.ofModel (.pack u)) z := by
  intro hbound
  have hunpack : (Float.Model.pack u).unpack = u := by
    apply h.unpack_pack
    apply hbound.imp_right
    rintro ⟨x, -, hle⟩
    exact le_trans hle (le_trans (le_abs_self _) (abs_valueOf_unpack_le x.toModel))
  have hfinite := h.isFinite_pack hunpack
  obtain ⟨-, k, t, hnearest, hvalue⟩ := h
  have hround : value (Float.ofModel (.pack u)) = k * 2 ^ t := by
    unfold value
    rw [hunpack]
    exact hvalue
  constructor
  . exact hfinite
  . rw [hround]
    exact hnearest.abs_sub_le
  . intro hz
    have := hnearest.nonneg hz
    rw [hround]
    positivity
  . intro x hx hxz
    obtain ⟨m, e, hm, he, hxval⟩ := (isCanonical_unpack hx).exists_eq_mul
    rw [hround]
    exact hnearest.eq_of_eq_mul hm he (hxz ▸ hxval)

theorem RoundsTo.value_eq {u : UnpackedFloat} {z : Rat} (h : RoundsTo z u) {m e : Int}
    (hm : |m| < 2 ^ 53) (he : -1074 ≤ e) (hz : z = m * 2 ^ e) (hle : |z| ≤ largest) :
    Arith.isFinite (Float.ofModel (.pack u)) = true ∧ value (Float.ofModel (.pack u)) = z := by
  have hunpack := h.unpack_pack (.inr hle)
  refine ⟨h.isFinite_pack hunpack, ?_⟩
  obtain ⟨-, k, t, hnearest, hvalue⟩ := h
  unfold value
  rw [hunpack]
  rw [hvalue]
  exact hnearest.eq_of_eq_mul hm he hz

end CalendarCode.Binary64
