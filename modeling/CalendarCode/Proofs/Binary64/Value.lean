import CalendarCode.Arith.Rounded
import Mathlib

/-!
This module contains the rational numbers that floating point numbers stand for. Their sixty-four
bits give back what has been packed into them, if it has no more than fifty-three digits and is not
too large.
-/

namespace CalendarCode.Binary64

open Float.Model
open UnpackedFloat (Sign)

/-- The number that an unpacked one stands for; zero for those that are not finite. -/
def valueOf : UnpackedFloat → Rat
  | .finite sign m e _ => sign.apply m * 2 ^ e
  | _ => 0

def value (x : Float) : Rat :=
  valueOf x.toModel.unpack

/-- The largest finite number. -/
def largest : Rat :=
  (2 ^ 53 - 1) * 2 ^ (971 : Int)

/-- Whether an unpacked number is finite and has as many digits as there is room for. -/
def IsCanonical : UnpackedFloat → Prop
  | .zero _ => True
  | .finite _ m e _ => m < 2 ^ 53 ∧ -1074 ≤ e ∧ (e = -1074 ∨ 2 ^ 52 ≤ m)
  | _ => False

section

variable {sign : Sign} {m : Nat} {e : Int}

theorem valueOf_zero : valueOf (.zero sign) = 0 := rfl

theorem valueOf_positive (h : 0 < m) : valueOf (.finite .positive m e h) = m * 2 ^ e := by
  simp [valueOf, Sign.apply]

theorem valueOf_negative (h : 0 < m) : valueOf (.finite .negative m e h) = -(m * 2 ^ e) := by
  simp [valueOf, Sign.apply]

theorem valueOf_positive_pos (h : 0 < m) : 0 < valueOf (.finite .positive m e h) := by
  rw [valueOf_positive]
  positivity

theorem valueOf_negative_neg (h : 0 < m) : valueOf (.finite .negative m e h) < 0 := by
  rw [valueOf_negative]
  apply neg_lt_zero.mpr
  positivity

theorem abs_apply (sign : Sign) (m : Nat) : |sign.apply (m : Int)| = m := by
  cases sign <;> simp [Sign.apply]

theorem abs_valueOf_finite (h : 0 < m) : |valueOf (.finite sign m e h)| = m * 2 ^ e := by
  cases sign with
  | negative =>
    rw [abs_of_neg (valueOf_negative_neg h)]
    rw [valueOf_negative]
    rw [neg_neg]
  | positive =>
    rw [abs_of_pos (valueOf_positive_pos h)]
    rw [valueOf_positive]

theorem toNat_hiddenBit_append (m : BitVec 52) : (1#1 ++ m).toNat = 2 ^ 52 + m.toNat := by
  rw [BitVec.toNat_append]
  rw [← Nat.shiftLeft_add_eq_or_of_lt m.isLt]
  rfl

theorem unpack_packComponents (e : BitVec 11) (m : BitVec 52) :
    UnpackedFloat.unpack .binary64 (UnpackedFloat.packComponents .binary64 sign e m) =
      if e = -1#11 then if m = 0#52 then .infinity sign else .notANumber
      else if e = 0#11 then
        if h : m = 0#52 then .zero sign
        else .finite sign m.toNat (-1074) (by simpa [BitVec.toNat_pos, BitVec.pos_iff_ne_zero])
      else .finite sign (2 ^ 52 + m.toNat) (e.toNat - 1075) (by omega) := by
  unfold UnpackedFloat.unpack
  simp only [UnpackedFloat.unpackExponent_packComponents,
    UnpackedFloat.unpackMantissa_packComponents, UnpackedFloat.unpackSign_packComponents,
    Sign.ofBitVec_toBitVec, toNat_hiddenBit_append]
  split
  . rfl
  . split
    . next h =>
      subst h
      rfl
    . rfl

theorem pack_finite (h : 0 < m) :
    UnpackedFloat.pack .binary64 (.finite sign m e h) =
      if 2048 ≤ (e + 1023 + 52).toNat + 1 then
        UnpackedFloat.packComponents .binary64 sign (-1#11) 0
      else if m.log2 + 1 = 53 then
        UnpackedFloat.packComponents .binary64 sign (.ofNat 11 (e + 1023 + 52).toNat) (.ofNat 52 m)
      else UnpackedFloat.packComponents .binary64 sign 0#11 (.ofNat 52 m) := rfl

theorem bounds_of_unpack {b : BitVec Format.binary64.numBits} {h : 0 < m}
    (hb : UnpackedFloat.unpack .binary64 b = .finite sign m e h) :
    IsCanonical (.finite sign m e h) ∧ e ≤ 971 := by
  rw [← UnpackedFloat.packComponents_unpackSign_unpackExponent_unpackMantissa b] at hb
  rw [unpack_packComponents] at hb
  generalize UnpackedFloat.unpackMantissa b = mantissa at hb
  generalize UnpackedFloat.unpackExponent b = exponent at hb
  have hmantissa : mantissa.toNat < 2 ^ 52 := mantissa.isLt
  have hexponent : exponent.toNat < 2 ^ 11 := exponent.isLt
  split at hb
  . split at hb
    . cases hb
    . cases hb
  . next htop =>
    have htop : exponent.toNat ≠ 2047 := fun heq => htop (BitVec.eq_of_toNat_eq heq)
    split at hb
    . split at hb
      . cases hb
      . cases hb
        exact ⟨⟨by omega, by decide, .inl rfl⟩, by decide⟩
    . next hnormal =>
      have hnormal : exponent.toNat ≠ 0 := fun heq => hnormal (BitVec.eq_of_toNat_eq heq)
      cases hb
      exact ⟨⟨by omega, by omega, .inr (by omega)⟩, by omega⟩

theorem unpack_pack (u : UnpackedFloat) :
    (Float.Model.pack u).unpack = UnpackedFloat.unpack .binary64 (UnpackedFloat.pack .binary64 u) :=
  rfl

theorem unpack_pack_of_large (h : 0 < m) (he : 971 < e) :
    (Float.Model.pack (.finite sign m e h)).unpack = .infinity sign := by
  rw [unpack_pack]
  rw [pack_finite]
  rw [if_pos (by omega)]
  exact unpack_packComponents (-1#11) 0

theorem unpack_pack_finite (h : 0 < m) (hu : IsCanonical (.finite sign m e h)) (he : e ≤ 971) :
    (Float.Model.pack (.finite sign m e h)).unpack = .finite sign m e h := by
  obtain ⟨hm, hleast, hnormal⟩ := hu
  rw [unpack_pack]
  rw [pack_finite]
  rw [if_neg (by omega)]
  split
  . next hlog =>
    have hfull : 2 ^ 52 ≤ m := (Nat.le_log2 h.ne').mp (by omega)
    have hexponent : (BitVec.ofNat 11 (e + 1023 + 52).toNat).toNat = (e + 1023 + 52).toNat :=
      Nat.mod_eq_of_lt (by omega)
    have hmantissa : 2 ^ 52 + (BitVec.ofNat 52 m).toNat = m := by
      rw [BitVec.toNat_ofNat]
      omega
    have htop : BitVec.ofNat 11 (e + 1023 + 52).toNat ≠ -1#11 := by
      apply mt (congrArg BitVec.toNat)
      rw [hexponent]
      exact fun heq => absurd heq (by simp; omega)
    have hbottom : BitVec.ofNat 11 (e + 1023 + 52).toNat ≠ 0#11 := by
      apply mt (congrArg BitVec.toNat)
      rw [hexponent]
      exact fun heq => absurd heq (by simp; omega)
    rw [unpack_packComponents]
    rw [if_neg htop]
    rw [if_neg hbottom]
    simp only [hexponent, hmantissa]
    congr 1
    omega
  . next hlog =>
    have hfew : m < 2 ^ 52 := by
      apply (Nat.log2_lt h.ne').mp
      have := (Nat.log2_lt h.ne').mpr hm
      omega
    have hmantissa : (BitVec.ofNat 52 m).toNat = m := Nat.mod_eq_of_lt hfew
    have hpos : BitVec.ofNat 52 m ≠ 0#52 := by
      apply mt (congrArg BitVec.toNat)
      rw [hmantissa]
      exact h.ne'
    rw [unpack_packComponents]
    rw [if_neg (by decide)]
    rw [if_pos rfl]
    rw [dif_neg hpos]
    simp only [hmantissa]
    congr 1
    omega

theorem two_pow_mul_zpow_le {n : Nat} {f : Int} (hn : 2 ^ 52 ≤ n) (h : e < f) :
    (2 : Rat) ^ 53 * 2 ^ e ≤ n * 2 ^ f := by
  have hn : (2 : Rat) ^ 52 ≤ n := by exact_mod_cast hn
  have hdouble : (2 : Rat) ^ 53 * 2 ^ e = 2 ^ 52 * 2 ^ (e + 1) := by
    rw [zpow_add_one₀ (by norm_num)]
    ring
  rw [hdouble]
  gcongr
  . norm_num
  . omega

theorem mul_zpow_lt {n : Nat} {f : Int} (hm : m < 2 ^ 53) (hn : 2 ^ 52 ≤ n) (h : e < f) :
    (m : Rat) * 2 ^ e < n * 2 ^ f := by
  have hm : (m : Rat) < 2 ^ 53 := by exact_mod_cast hm
  calc (m : Rat) * 2 ^ e < 2 ^ 53 * 2 ^ e := by gcongr
    _ ≤ n * 2 ^ f := two_pow_mul_zpow_le hn h

theorem cmp_magnitude {n : Nat} {f : Int} {h : 0 < m} {h' : 0 < n}
    (hu : IsCanonical (.finite sign m e h)) (hv : IsCanonical (.finite sign n f h')) :
    (compare e f).then (compare m n) = cmp ((m : Rat) * 2 ^ e) (n * 2 ^ f) := by
  obtain ⟨hm, he, hfull⟩ := hu
  obtain ⟨hn, hf, hfull'⟩ := hv
  rcases lt_trichotomy e f with hlt | heq | hgt
  . rw [compare_lt_iff_lt.mpr hlt]
    rw [(cmp_eq_lt_iff _ _).mpr (mul_zpow_lt hm (hfull'.resolve_left (by omega)) hlt)]
    rfl
  . subst heq
    rw [compare_eq_iff_eq.mpr rfl]
    rw [cmp_mul_pos_right (by positivity)]
    rw [Nat.strictMono_cast.cmp_map_eq]
    rw [cmp_eq_compare]
    rfl
  . rw [compare_gt_iff_gt.mpr hgt]
    rw [(cmp_eq_gt_iff _ _).mpr (mul_zpow_lt hn (hfull.resolve_left (by omega)) hgt)]
    rfl

/-- Canonical numbers are compared by their exponents first, and so their values are. -/
theorem compare_eq {u v : UnpackedFloat} (hu : IsCanonical u) (hv : IsCanonical v) :
    u.compare v = some (cmp (valueOf u) (valueOf v)) := by
  match u, v, hu, hv with
  | .zero _, .zero _, _, _ => rfl
  | .zero _, .finite .negative _ _ h, _, _ =>
    rw [valueOf_zero]
    rw [(cmp_eq_gt_iff _ _).mpr (valueOf_negative_neg h)]
    rfl
  | .zero _, .finite .positive _ _ h, _, _ =>
    rw [valueOf_zero]
    rw [(cmp_eq_lt_iff _ _).mpr (valueOf_positive_pos h)]
    rfl
  | .finite .negative _ _ h, .zero _, _, _ =>
    rw [valueOf_zero]
    rw [(cmp_eq_lt_iff _ _).mpr (valueOf_negative_neg h)]
    rfl
  | .finite .positive _ _ h, .zero _, _, _ =>
    rw [valueOf_zero]
    rw [(cmp_eq_gt_iff _ _).mpr (valueOf_positive_pos h)]
    rfl
  | .finite .negative _ _ h, .finite .positive _ _ h', _, _ =>
    rw [(cmp_eq_lt_iff _ _).mpr (lt_trans (valueOf_negative_neg h) (valueOf_positive_pos h'))]
    rfl
  | .finite .positive _ _ h, .finite .negative _ _ h', _, _ =>
    rw [(cmp_eq_gt_iff _ _).mpr (lt_trans (valueOf_negative_neg h') (valueOf_positive_pos h))]
    rfl
  | .finite .positive _ _ _, .finite .positive _ _ _, hu, hv =>
    rw [valueOf_positive]
    rw [valueOf_positive]
    rw [← cmp_magnitude hu hv]
    rfl
  | .finite .negative m e _, .finite .negative n f _, hu, hv =>
    have hswap : cmp (-((m : Rat) * 2 ^ e)) (-(n * 2 ^ f))
        = (cmp ((m : Rat) * 2 ^ e) (n * 2 ^ f)).swap := by
      rw [cmp_swap]
      simp only [cmp, cmpUsing, neg_lt_neg_iff]
    rw [valueOf_negative]
    rw [valueOf_negative]
    rw [hswap]
    rw [← cmp_magnitude hu hv]
    rfl

end

theorem exists_finite_of_pos {v : UnpackedFloat} (hv : IsCanonical v) (h : 0 < valueOf v) :
    ∃ m e hm, v = .finite .positive m e hm := by
  match v, hv with
  | .zero _, _ => exact absurd h (lt_irrefl 0)
  | .finite .negative _ _ hm, _ => exact absurd h (not_lt.mpr (valueOf_negative_neg hm).le)
  | .finite .positive m e hm, _ => exact ⟨m, e, hm, rfl⟩

theorem exists_finite_of_nonneg {v : UnpackedFloat} (hv : IsCanonical v) (h : 0 ≤ valueOf v) :
    (∃ sign, v = .zero sign) ∨ ∃ m e hm, v = .finite .positive m e hm := by
  match v, hv with
  | .zero sign, _ => exact .inl ⟨sign, rfl⟩
  | .finite .negative _ _ hm, _ => exact absurd (valueOf_negative_neg hm) (not_lt.mpr h)
  | .finite .positive m e hm, _ => exact .inr ⟨m, e, hm, rfl⟩

theorem isCanonical_unpack {x : Float.Model} (h : x.isFinite = true) : IsCanonical x.unpack := by
  unfold Float.Model.isFinite at h
  cases hu : x.unpack with
  | infinity => simp [hu, UnpackedFloat.isFinite] at h
  | notANumber => simp [hu, UnpackedFloat.isFinite] at h
  | zero => exact trivial
  | finite => exact (bounds_of_unpack hu).1

theorem abs_valueOf_unpack_le (x : Float.Model) : |valueOf x.unpack| ≤ largest := by
  unfold largest
  cases hu : x.unpack with
  | infinity => norm_num [valueOf]
  | notANumber => norm_num [valueOf]
  | zero => norm_num [valueOf]
  | finite sign m e h =>
    obtain ⟨⟨hm, -⟩, he⟩ := bounds_of_unpack hu
    have hm : (m : Rat) + 1 ≤ 2 ^ 53 := by exact_mod_cast hm
    rw [abs_valueOf_finite]
    gcongr
    . linarith
    . norm_num

theorem unpack_pack_canonical {u : UnpackedFloat} (hu : IsCanonical u)
    (h : (Float.Model.pack u).isFinite = true ∨ |valueOf u| < 2 ^ 53 * 2 ^ (971 : Int)) :
    (Float.Model.pack u).unpack = u := by
  cases u with
  | infinity => exact hu.elim
  | notANumber => exact hu.elim
  | zero sign => exact UnpackedFloat.unpack_packedZero
  | finite sign m e hm =>
    apply unpack_pack_finite hm hu
    by_contra! hlarge
    rcases h with h | h
    . unfold Float.Model.isFinite at h
      rw [unpack_pack_of_large hm hlarge] at h
      cases h
    . have hfull := hu.2.2.resolve_left (by omega)
      rw [abs_valueOf_finite] at h
      exact absurd h (not_lt.mpr (two_pow_mul_zpow_le hfull hlarge))

theorem IsCanonical.exists_eq_mul {u : UnpackedFloat} (h : IsCanonical u) :
    ∃ m e : Int, |m| < 2 ^ 53 ∧ -1074 ≤ e ∧ valueOf u = m * 2 ^ e := by
  cases u with
  | infinity => exact h.elim
  | notANumber => exact h.elim
  | zero => exact ⟨0, -1074, by norm_num, by norm_num, by norm_num [valueOf]⟩
  | finite sign m e hm =>
    refine ⟨sign.apply m, e, ?_, h.2.1, rfl⟩
    rw [abs_apply]
    exact_mod_cast h.1

theorem IsCanonical.isFinite {u : UnpackedFloat} (h : IsCanonical u) : u.isFinite = true := by
  cases u with
  | infinity => exact h.elim
  | notANumber => exact h.elim
  | zero => rfl
  | finite => rfl

theorem lt_iff {x y : Float} (hx : x.isFinite = true) (hy : y.isFinite = true) :
    x < y ↔ value x < value y := by
  have hlt : x < y ↔ (x.toModel.unpack.compare y.toModel.unpack == some .lt) = true :=
    decide_eq_true_iff
  rw [hlt]
  rw [compare_eq (isCanonical_unpack hx) (isCanonical_unpack hy)]
  rw [beq_iff_eq]
  rw [Option.some_inj]
  exact cmp_eq_lt_iff _ _

theorem le_iff {x y : Float} (hx : x.isFinite = true) (hy : y.isFinite = true) :
    x ≤ y ↔ value x ≤ value y := by
  have hle : x ≤ y ↔ ((x.toModel.unpack.compare y.toModel.unpack).any (·.isLE)) = true :=
    decide_eq_true_iff
  rw [hle]
  rw [compare_eq (isCanonical_unpack hx) (isCanonical_unpack hy)]
  rw [Option.any_some]
  rw [Ordering.isLE_iff_ne_gt]
  rw [cmp_eq_gt_iff]
  exact not_lt

end CalendarCode.Binary64
