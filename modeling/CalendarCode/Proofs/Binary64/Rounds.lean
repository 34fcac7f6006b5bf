import CalendarCode.Proofs.Binary64.Operations

/-!
This module contains the integer parts and remainders of floating point numbers, and that they make
an arithmetic that rounds. Integer parts and remainders have no more digits than the numbers that
they come from, so that nothing is lost.
-/

namespace CalendarCode.Binary64

open Float.Model
open UnpackedFloat (Sign ExtendedMantissa)

section

variable {u v : UnpackedFloat} {sign : Sign} {m n : Nat} {e f : Int}

theorem isFinite_of_pack (h : (Float.Model.pack u).isFinite = true) : u.isFinite = true := by
  cases u with
  | infinity sign => cases sign <;> exact h
  | notANumber => exact h
  | zero => rfl
  | finite => rfl

theorem isFinite_of_add (h : (UnpackedFloat.add .binary64 u v).isFinite = true) :
    u.isFinite = true ∧ v.isFinite = true := by
  cases u <;> cases v
  case infinity.infinity s s' => cases s <;> cases s' <;> cases h
  all_goals first | exact ⟨rfl, rfl⟩ | cases h

theorem isFinite_of_mul (h : (UnpackedFloat.mul .binary64 u v).isFinite = true) :
    u.isFinite = true ∧ v.isFinite = true := by
  cases u <;> cases v <;> first | exact ⟨rfl, rfl⟩ | cases h

theorem isFinite_of_div (h : (UnpackedFloat.div .binary64 u v).isFinite = true) :
    u.isFinite = true := by
  cases u <;> cases v <;> first | rfl | cases h

theorem roundToInt_eq (sign : Sign) (m : Nat) (e : Int) :
    UnpackedFloat.roundToInt sign m e = sign.apply ⌊(m : Rat) * 2 ^ e⌋ := by
  generalize hn : (e - 0).toNat = n
  generalize hk : (0 - (e - n)).toNat = k
  have hround : UnpackedFloat.roundToInt sign m e = sign.apply
      ((ExtendedMantissa.ofMantissaAndAccuracy (m <<< n) .exact >>> k).mantissa : Nat) := by
    rw [← hk, ← hn]
    rfl
  have hscale : ((m <<< n : Nat) : Rat) / 2 ^ k = m * 2 ^ e := by
    have hexponent : e - n = -(k : Int) := by omega
    rw [← shiftLeft_mul_zpow m n e]
    rw [hexponent]
    rw [zpow_neg]
    rw [zpow_natCast]
    rfl
  have hbounds := ((represents_exact (m <<< n)).shiftRight k).bounds
  rw [hscale] at hbounds
  rw [hround]
  congr 1
  rw [eq_comm]
  rw [Int.floor_eq_iff]
  exact hbounds

end

theorem abs_le_largest {z : Rat} (h : |z| ≤ 2 ^ 64) : |z| ≤ largest := by
  have htop : (2 : Rat) ^ (12 : Int) ≤ 2 ^ (971 : Int) :=
    zpow_le_zpow_right₀ (by norm_num) (by norm_num)
  calc |z| ≤ 2 ^ 64 := h
    _ ≤ (2 ^ 53 - 1) * 2 ^ (12 : Int) := by norm_num
    _ ≤ (2 ^ 53 - 1) * 2 ^ (971 : Int) := mul_le_mul_of_nonneg_left htop (by norm_num)

theorem roundsTo_ofInt (i : Int) : RoundsTo i (UnpackedFloat.ofInt .binary64 i) := by
  have hround := roundsTo_normalize i 0 .positive
  rw [zpow_zero, mul_one] at hround
  exact hround

theorem value_ofInt {i : Int} (hi : |i| ≤ 2 ^ 53) :
    Arith.isFinite (ofInt i) = true ∧ value (ofInt i) = i := by
  have hround := roundsTo_ofInt i
  have hle : |(i : Rat)| ≤ largest := by
    apply abs_le_largest
    have : |(i : Rat)| ≤ 2 ^ 53 := by exact_mod_cast hi
    exact le_trans this (by norm_num)
  rcases eq_or_lt_of_le hi with heq | hlt
  . have hends := (abs_eq (by norm_num)).mp heq
    have heven : i = i / 2 * 2 := by omega
    have hhalf : |i / 2| < 2 ^ 53 := by
      rw [abs_lt]
      omega
    apply hround.value_eq hhalf (e := 1) (by norm_num) _ hle
    rw [zpow_one]
    exact_mod_cast heven
  . exact hround.value_eq (e := 0) hlt (by norm_num) (by norm_num) hle

theorem value_ofInt_word :
    Arith.isFinite (ofInt (2 ^ 64)) = true ∧ value (ofInt (2 ^ 64)) = 2 ^ 64 := by
  have hround := roundsTo_ofInt (2 ^ 64)
  push_cast at hround
  apply hround.value_eq (m := 1) (e := 64) (by norm_num) (by norm_num) (by norm_num)
  exact abs_le_largest (by norm_num)

theorem truncate_of_nonneg {x : Float} (hfinite : x.isFinite = true) (hx : 0 ≤ value x) :
    truncate x = ⌊value x⌋ := by
  unfold truncate value at *
  rcases exists_finite_of_nonneg (isCanonical_unpack hfinite) hx with ⟨sign, hu⟩ | ⟨m, e, h, hu⟩
  . rw [hu]
    rfl
  . rw [hu]
    rw [valueOf_positive]
    exact roundToInt_eq .positive m e

theorem truncate_of_neg {x : Float} (hx : value x < 0) : truncate x = ⌈value x⌉ := by
  unfold truncate value at *
  cases hu : x.toModel.unpack with
  | infinity => exact absurd hx (by rw [hu]; exact lt_irrefl 0)
  | notANumber => exact absurd hx (by rw [hu]; exact lt_irrefl 0)
  | zero => exact absurd hx (by rw [hu]; exact lt_irrefl 0)
  | finite sign m e h =>
    rw [hu] at hx
    cases sign with
    | negative =>
      rw [valueOf_negative]
      rw [Int.ceil_neg]
      exact roundToInt_eq .negative m e
    | positive => exact absurd (valueOf_positive_pos h) (not_lt.mpr hx.le)

theorem not_lt_of_isNaN {x y : Float} (hy : y.toModel.unpack = .notANumber) : ¬x < y := by
  have hlt : x < y ↔ (x.toModel.unpack.compare y.toModel.unpack == some .lt) = true :=
    decide_eq_true_iff
  rw [hlt]
  rw [hy]
  cases x.toModel.unpack with
  | infinity sign => cases sign <;> exact Bool.false_ne_true
  | notANumber => exact Bool.false_ne_true
  | zero => exact Bool.false_ne_true
  | finite sign => cases sign <;> exact Bool.false_ne_true

theorem ceil_of_lt {x : Float} (h : ofInt (truncate x) < x) : ceil x = (truncate x + 1).toNat :=
  if_pos h

theorem ceil_of_not_lt {x : Float} (h : ¬ofInt (truncate x) < x) : ceil x = (truncate x).toNat :=
  if_neg h

theorem ceil_bounds (x : Float) :
    (truncate x).toNat ≤ ceil x ∧ ceil x ≤ (truncate x + 1).toNat := by
  by_cases hlt : ofInt (truncate x) < x
  . rw [ceil_of_lt hlt]
    omega
  . rw [ceil_of_not_lt hlt]
    omega

theorem isFinite_of_ceil {x : Float} (hpos : 0 < ceil x) (hle : ceil x ≤ 2 ^ 53) :
    x.isFinite = true := by
  have hfinite : x.isFinite = x.toModel.unpack.isFinite := rfl
  rw [hfinite]
  have hbounds := ceil_bounds x
  cases hu : x.toModel.unpack with
  | infinity sign =>
    cases sign with
    | negative =>
      have htruncate : truncate x = -0x10000000000000000 := by
        unfold truncate
        rw [hu]
        rfl
      omega
    | positive =>
      have htruncate : truncate x = 0x10000000000000000 := by
        unfold truncate
        rw [hu]
        rfl
      omega
  | notANumber =>
    have htruncate : truncate x = 0 := by
      unfold truncate
      rw [hu]
      rfl
    rw [ceil_of_not_lt (not_lt_of_isNaN hu)] at hpos
    omega
  | zero => rfl
  | finite => rfl

theorem ceil_eq {x : Float} (hpos : 0 < ceil x) (hle : ceil x ≤ 2 ^ 53) :
    (ceil x : Int) = ⌈value x⌉ := by
  have hx := isFinite_of_ceil hpos hle
  rcases lt_or_ge (value x) 0 with hneg | hnonneg
  . -- toward zero, a negative number is rounded up already
    have htruncate := truncate_of_neg hneg
    have hceil : ⌈value x⌉ ≤ 0 := Int.ceil_le.mpr (by exact_mod_cast hneg.le)
    by_cases hlt : ofInt (truncate x) < x
    . rw [ceil_of_lt hlt] at hpos
      have hzero : truncate x = 0 := by omega
      obtain ⟨hfinite, hvalue⟩ := value_ofInt (i := truncate x) (by rw [hzero]; norm_num)
      have hlt := (lt_iff hfinite hx).mp hlt
      rw [hvalue, hzero, Int.cast_zero] at hlt
      exact absurd hlt (not_lt.mpr hneg.le)
    . rw [ceil_of_not_lt hlt] at hpos
      omega
  . have htruncate := truncate_of_nonneg hx hnonneg
    have hfloor := Int.floor_nonneg.mpr hnonneg
    have hbounds := ceil_bounds x
    have hsmall : |truncate x| ≤ 2 ^ 53 := by
      rw [abs_of_nonneg (by omega)]
      omega
    obtain ⟨hfinite, hvalue⟩ := value_ofInt hsmall
    have hle := Int.floor_le (value x)
    have hlast := (Int.lt_floor_add_one (value x)).le
    rw [eq_comm]
    rw [Int.ceil_eq_iff]
    by_cases hlt : ofInt (truncate x) < x
    . rw [ceil_of_lt hlt]
      rw [lt_iff hfinite hx, hvalue, htruncate] at hlt
      rw [Int.toNat_of_nonneg (by omega), htruncate]
      push_cast
      constructor <;> linarith
    . rw [ceil_of_not_lt hlt]
      rw [lt_iff hfinite hx, hvalue, htruncate] at hlt
      rw [Int.toNat_of_nonneg (by omega), htruncate]
      constructor <;> linarith

/-- A remainder ends where one of the numbers ends, and it is not larger than this number. -/
theorem remainder_lt {m n : Nat} {e f : Int} (hm : m < 2 ^ 53) (hn : n < 2 ^ 53) (hpos : 0 < n) :
    (m <<< (e - min e f).toNat) % (n <<< (f - min e f).toNat) < 2 ^ 53 := by
  rcases le_total e f with hle | hle
  . rw [min_eq_left hle]
    rw [sub_self]
    exact lt_of_le_of_lt (Nat.mod_le _ _) hm
  . rw [min_eq_right hle]
    rw [sub_self]
    exact lt_trans (Nat.mod_lt _ hpos) hn

theorem remainder_mul_zpow_lt (m : Nat) {n : Nat} (e f : Int) (hn : 0 < n) :
    ((m <<< (e - min e f).toNat % n <<< (f - min e f).toNat : Nat) : Rat) * 2 ^ min e f
      < n * 2 ^ f := by
  have hexponent : min e f = f - (f - min e f).toNat := by omega
  have haligned := shiftLeft_mul_zpow n (f - min e f).toNat f
  rw [← hexponent] at haligned
  have hpos : 0 < n <<< (f - min e f).toNat := by
    rw [Nat.shiftLeft_eq]
    positivity
  rw [← haligned]
  apply mul_lt_mul_of_pos_right
  . exact_mod_cast Nat.mod_lt _ hpos
  . positivity

theorem value_round {k : Nat} {t : Int} (hk : k < 2 ^ 53) (ht : -1074 ≤ t)
    (hle : (k : Rat) * 2 ^ t ≤ largest) :
    Arith.isFinite (Float.ofModel (.pack (.round .binary64 .positive k t))) = true ∧
      value (.ofModel (.pack (.round .binary64 .positive k t))) = k * 2 ^ t := by
  have hround := roundsTo_round k t .positive
  have hone : ((Sign.positive.apply 1 : Int) : Rat) = 1 := rfl
  rw [hone, one_mul] at hround
  apply hround.value_eq (m := k) (e := t) _ ht rfl
  . rw [abs_of_nonneg (by positivity)]
    exact hle
  . rw [Nat.abs_cast]
    exact_mod_cast hk

theorem value_remainder {x y : Float} (hx : x.isFinite = true) (hy : y.isFinite = true)
    (hnonneg : 0 ≤ value x) (hpos : 0 < value y) : Arith.isFinite (remainder x y) = true ∧
      0 ≤ value (remainder x y) ∧ value (remainder x y) < value y := by
  have hu := isCanonical_unpack hx
  have hv := isCanonical_unpack hy
  have htop := abs_valueOf_unpack_le y.toModel
  have hremainder : remainder x y
      = .ofModel (.pack (remainderOf x.toModel.unpack y.toModel.unpack)) := rfl
  have hvalue : value y = valueOf y.toModel.unpack := rfl
  rw [hvalue] at hpos ⊢
  rw [hremainder]
  obtain ⟨n, f, hn, hy⟩ := exists_finite_of_pos hv hpos
  rw [hy] at hpos hv htop ⊢
  rcases exists_finite_of_nonneg hu hnonneg with ⟨sign, hx⟩ | ⟨m, e, hm, hx⟩
  . rw [hx]
    have hzero := (roundsTo_zero sign).value_eq (m := 0) (e := 0) (by norm_num) (by norm_num)
      (by norm_num) (abs_le_largest (by norm_num))
    have hrest : remainderOf (.zero sign) (.finite .positive n f hn) = .zero sign := rfl
    rw [hrest]
    exact ⟨hzero.1, hzero.2.ge, by rw [hzero.2]; exact hpos⟩
  . rw [hx] at hu ⊢
    have hsmall := remainder_lt (e := e) (f := f) hu.1 hv.1 hn
    have hlt := remainder_mul_zpow_lt m e f hn
    rw [valueOf_positive] at htop ⊢
    have hrest := value_round hsmall (le_min hu.2.1 hv.2.1)
      (le_trans hlt.le (le_trans (le_abs_self _) htop))
    have heq : remainderOf (.finite .positive m e hm) (.finite .positive n f hn)
        = .round .binary64 .positive
          (m <<< (e - min e f).toNat % n <<< (f - min e f).toNat) (min e f) := rfl
    rw [heq]
    rw [hrest.2]
    exact ⟨hrest.1, by positivity, hlt⟩

theorem value_modulo {x y : Float} (hx : x.isFinite = true) (hy : y.isFinite = true)
    (hnonneg : 0 ≤ value x) (hpos : 0 < value y) : Arith.isFinite (modulo x y) = true ∧
      0 ≤ value (modulo x y) ∧ value (modulo x y) < value y := by
  have hremainder := value_remainder hx hy hnonneg hpos
  have hzero : value (0.0 : Float) = 0 := rfl
  have hmodulo : modulo x y = remainder x y := by
    apply if_neg
    rw [lt_iff hremainder.1 rfl]
    rw [hzero]
    exact not_lt.mpr hremainder.2.1
  rw [hmodulo]
  exact hremainder

theorem rounds_value : Arith.Rounds value where
  ofInt _ hi := value_ofInt hi
  large := ⟨_, value_ofInt_word.1, value_ofInt_word.2.ge⟩
  lt_iff _ _ hx hy := lt_iff hx hy
  le_iff _ _ hx hy := le_iff hx hy
  add _ _ hx hy := (roundsTo_add (isCanonical_unpack hx) (isCanonical_unpack hy)).isRounded
  sub _ _ hx hy := (roundsTo_sub (isCanonical_unpack hx) (isCanonical_unpack hy)).isRounded
  mul _ _ hx hy := (roundsTo_mul (isCanonical_unpack hx) (isCanonical_unpack hy)).isRounded
  div _ _ hx hy hne := (roundsTo_div (isCanonical_unpack hx) (isCanonical_unpack hy) hne).isRounded
  isFinite_of_add _ _ h := isFinite_of_add (isFinite_of_pack h)
  isFinite_of_mul _ _ h := isFinite_of_mul (isFinite_of_pack h)
  isFinite_of_div _ _ h := isFinite_of_div (isFinite_of_pack h)
  modulo _ _ hx hy hnonneg hpos := value_modulo hx hy hnonneg hpos
  truncate _ hx hnonneg := truncate_of_nonneg hx hnonneg
  ceil _ hpos hle := ⟨isFinite_of_ceil hpos hle, ceil_eq hpos hle⟩

end CalendarCode.Binary64
