import CalendarCode.Proofs.Arith

/-!
This module contains what an arithmetic has to satisfy that rounds. Each of its finite numbers has
an exact value, and an operation gives a number close to the exact result: fifty-three binary digits
of it are right, unless it is too small to have so many.
-/

namespace CalendarCode.Arith

variable {α : Type} [Arith α]

/-- Half of the least positive number. -/
@[irreducible]
def underflow : Rat :=
  1 / 2 ^ 1075

/-- Whether a finite number is what an exact result is rounded to. -/
structure IsRounding (value : α → Rat) (r : α) (z : Rat) : Prop where
  isFinite : isFinite r = true
  near : |value r - z| ≤ |z| / 2 ^ 53 + underflow
  nonneg : 0 ≤ z → 0 ≤ value r
  exact : ∀ x : α, Arith.isFinite x = true → value x = z → value r = z

/-- Whether an exact result is rounded, unless it lies beyond all finite numbers. -/
def IsRounded (value : α → Rat) (r : α) (z : Rat) : Prop :=
  (isFinite r = true ∨ ∃ x : α, isFinite x = true ∧ |z| ≤ value x) → IsRounding value r z

/-- Whether the operations of an arithmetic round; `value` is the exact value of a finite number. -/
structure Rounds (value : α → Rat) : Prop where
  ofInt : ∀ i : Int, |i| ≤ 2 ^ 53 →
    isFinite (Arith.ofInt i : α) = true ∧ value (Arith.ofInt i) = i
  large : ∃ x : α, isFinite x = true ∧ 2 ^ 64 ≤ value x
  lt_iff : ∀ x y : α, isFinite x = true → isFinite y = true → (x < y ↔ value x < value y)
  le_iff : ∀ x y : α, isFinite x = true → isFinite y = true → (x ≤ y ↔ value x ≤ value y)
  add : ∀ x y : α, isFinite x = true → isFinite y = true →
    IsRounded value (x + y) (value x + value y)
  sub : ∀ x y : α, isFinite x = true → isFinite y = true →
    IsRounded value (x - y) (value x - value y)
  mul : ∀ x y : α, isFinite x = true → isFinite y = true →
    IsRounded value (x * y) (value x * value y)
  div : ∀ x y : α, isFinite x = true → isFinite y = true → value y ≠ 0 →
    IsRounded value (x / y) (value x / value y)
  isFinite_of_add : ∀ x y : α, isFinite (x + y) = true → isFinite x = true ∧ isFinite y = true
  isFinite_of_mul : ∀ x y : α, isFinite (x * y) = true → isFinite x = true ∧ isFinite y = true
  isFinite_of_div : ∀ x y : α, isFinite (x / y) = true → isFinite x = true
  modulo : ∀ x y : α, isFinite x = true → isFinite y = true → 0 ≤ value x → 0 < value y →
    isFinite (modulo x y) = true ∧ 0 ≤ value (Arith.modulo x y) ∧
      value (Arith.modulo x y) < value y
  truncate : ∀ x : α, isFinite x = true → 0 ≤ value x → truncate x = ⌊value x⌋
  ceil : ∀ x : α, 0 < ceil x → ceil x ≤ 2 ^ 53 →
    isFinite x = true ∧ (Arith.ceil x : Int) = ⌈value x⌉

/-- How large the error of a rounding may be, as a share of a result that is not very small. -/
def roundoff : Rat :=
  1 / 2 ^ 53 + 1 / 2 ^ 60

section

variable {value : α → Rat} {r : α} {z : Rat}

theorem underflow_pos : 0 < underflow := by
  unfold underflow
  positivity

theorem underflow_le : underflow ≤ 1 / 2 ^ 60 * (1 / 2 ^ 64) := by
  unfold underflow
  rw [one_div_mul_one_div]
  rw [← pow_add]
  apply one_div_le_one_div_of_le (by positivity)
  exact pow_le_pow_right₀ (by norm_num) (by norm_num)

theorem IsRounding.le_value (h : IsRounding value r z) (hz : 0 ≤ z) :
    z / 2 - underflow ≤ value r := by
  have hnear := abs_le.mp h.near
  rw [abs_of_nonneg hz] at hnear
  linarith

theorem IsRounding.value_le (h : IsRounding value r z) (hz : 0 ≤ z) : value r ≤ 2 * z + 1 := by
  have hsmall := underflow_le
  have hnear := abs_le.mp h.near
  rw [abs_of_nonneg hz] at hnear
  linarith

theorem IsRounding.bounds (h : IsRounding value r z) (hz : 1 / 2 ^ 64 ≤ z) :
    (1 - roundoff) * z ≤ value r ∧ value r ≤ (1 + roundoff) * z := by
  have hnonneg : 0 ≤ z := le_trans (by norm_num) hz
  have hsmall := underflow_le
  have hnear := abs_le.mp h.near
  rw [abs_of_nonneg hnonneg] at hnear
  unfold roundoff
  constructor
  . linarith
  . linarith

theorem IsRounded.of_abs_le (hα : Rounds value) (h : IsRounded value r z) (hz : |z| ≤ 2 ^ 64) :
    IsRounding value r z := by
  obtain ⟨x, hx, hlarge⟩ := hα.large
  exact h (.inr ⟨x, hx, le_trans hz hlarge⟩)

theorem Rounds.sub_of_zero (hα : Rounds value) {x y : α} (hx : isFinite x = true)
    (hy : isFinite y = true) (hzero : value y = 0) (hnonneg : 0 ≤ value x) :
    isFinite (x - y) = true ∧ value (x - y) = value x := by
  have hsub := hα.sub x y hx hy
  rw [hzero] at hsub
  rw [sub_zero] at hsub
  have hround := hsub (.inr ⟨x, hx, (abs_of_nonneg hnonneg).le⟩)
  exact ⟨hround.isFinite, hround.exact x hx rfl⟩

theorem Rounds.add_of_zero (hα : Rounds value) {x y : α} (hx : isFinite x = true)
    (hy : isFinite y = true) (hzero : value y = 0) (hnonneg : 0 ≤ value x) :
    isFinite (x + y) = true ∧ value (x + y) = value x := by
  have hadd := hα.add x y hx hy
  rw [hzero] at hadd
  rw [add_zero] at hadd
  have hround := hadd (.inr ⟨x, hx, (abs_of_nonneg hnonneg).le⟩)
  exact ⟨hround.isFinite, hround.exact x hx rfl⟩

theorem Rounds.ofNat (hα : Rounds value) {n : Nat} (hn : n ≤ 2 ^ 53) :
    isFinite (ofNat n : α) = true ∧ value (Arith.ofNat n) = n :=
  hα.ofInt n (by rw [Nat.abs_cast]; exact_mod_cast hn)

end

end CalendarCode.Arith
