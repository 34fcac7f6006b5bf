import CalendarCode.Proofs.Scalar.Reconstruct

/-!
This module contains the table of buckets. Its buckets are the ones that values of the domain have,
in the order of these values, and no others. Each value of the table lies in its own bucket, or its
closest value of the domain does, and it is no more than half a resolution away from all values that
share the bucket.
-/

namespace CalendarCode.ScalarCodec

variable (k : ScalarCodec Rat)

/-- Whether a value lies in the domain. A circle does not have its upper end. -/
structure InDomain (v : Rat) : Prop where
  low_le : k.low ≤ v
  le_high : v ≤ k.high
  lt_high : k.periodic = true → v < k.high

/-- Whether a value of the domain stands for another value, by whole turns if there are any. -/
structure IsImage (v image : Rat) : Prop where
  inDomain : k.InDomain image
  closest : k.periodic = false → image = max k.low (min v k.high)
  turned : k.periodic = true → ∃ turns : Int, image = v + turns * (k.high - k.low)

theorem inDomain_bound (v : Rat) : k.InDomain (k.bound v) where
  low_le := k.low_le_bound v
  le_high := k.bound_le_high v
  lt_high h := k.bound_lt_high h v

theorem bound_of_inDomain {v : Rat} (h : k.InDomain v) : k.bound v = v :=
  k.bound_of_mem h.low_le h.le_high h.lt_high

theorem bound_eq_of_line (h : k.periodic = false) (v : Rat) :
    k.bound v = max k.low (min v k.high) := by
  rw [k.bound_of_line h]
  rw [Arith.clamp_eq _ _ _ k.low_le_high]

theorem bound_add_turns (h : k.periodic = true) (v : Rat) (turns : Int) :
    k.bound (v + turns * (k.high - k.low)) = k.bound v := by
  rw [k.bound_of_circle h]
  rw [k.bound_of_circle h]
  rw [add_sub_right_comm]
  rw [← span_eq]
  rw [Arith.modulo_add_mul _ k.span_pos]

theorem isImage_bound (v : Rat) : k.IsImage v (k.bound v) where
  inDomain := k.inDomain_bound v
  closest h := k.bound_eq_of_line h v
  turned h := by
    refine ⟨-⌊(v - k.low) / k.span⌋, ?_⟩
    rw [k.bound_of_circle h]
    rw [Arith.modulo_eq]
    rw [← span_eq]
    push_cast
    ring

theorem bound_of_isImage {v image : Rat} (h : k.IsImage v image) : k.bound v = image := by
  cases hc : k.periodic with
  | false =>
    rw [k.bound_eq_of_line hc]
    rw [h.closest hc]
  | true =>
    obtain ⟨turns, hturns⟩ := h.turned hc
    rw [← k.bound_add_turns hc v turns]
    rw [← hturns]
    exact k.bound_of_inDomain h.inDomain

theorem bucket?_congr {v w : Rat} (h : k.bound v = k.bound w) : k.bucket? v = k.bucket? w := by
  rw [bucket?_exact]
  rw [bucket?_exact]
  unfold bucketOf
  rw [h]

theorem length_bucketValues : k.bucketValues.length = k.bucketCount := by
  simp [bucketValues]

theorem getElem?_bucketValues {i : Nat} (hi : i < k.bucketCount) :
    k.bucketValues[i]? = some (k.bucketValue i) := by
  simp [bucketValues, hi]

theorem bucket?_bucketValue {i : Nat} (hi : i < k.bucketCount) :
    k.bucket? (max k.low (min (k.bucketValue i) k.high)) = some i := by
  rw [← Arith.clamp_eq _ _ _ k.low_le_high]
  rw [bucket?_exact]
  rw [k.bucketOf_clamp_bucketValue hi]

theorem exists_bucket?_iff (i : Nat) :
    (∃ v, k.InDomain v ∧ k.bucket? v = some i) ↔ i < k.bucketCount := by
  constructor
  . rintro ⟨v, -, hv⟩
    rw [bucket?_exact] at hv
    cases hv
    exact k.bucketOf_lt_bucketCount v
  . intro hi
    -- the value of the bucket itself may lie beyond the upper end of a line
    refine ⟨_, k.inDomain_bound (max k.low (min (k.bucketValue i) k.high)), ?_⟩
    rw [k.bucket?_congr (k.bound_of_inDomain (k.inDomain_bound _))]
    exact k.bucket?_bucketValue hi

structure HasTable : Prop where
  /-- Higher values of the domain do not have lower buckets. -/
  mono : ∀ v w, k.InDomain v → k.InDomain w → v ≤ w →
    ∃ i j, k.bucket? v = some i ∧ k.bucket? w = some j ∧ i ≤ j
  /-- The buckets of the domain are those of the table. -/
  onto : ∀ i, (∃ v, k.InDomain v ∧ k.bucket? v = some i) ↔ i < k.bucketCount
  /-- Beyond the ends of a line, a value has the bucket of the end. -/
  closest : k.periodic = false → ∀ v, k.bucket? v = k.bucket? (max k.low (min v k.high))
  /-- On a circle, whole turns do not matter. -/
  turned : k.periodic = true → ∀ (v : Rat) (turns : Int),
    k.bucket? (v + turns * (k.high - k.low)) = k.bucket? v
  length : k.bucketValues.length = k.bucketCount
  /-- Each value of the table lies in its bucket once it is brought into the domain. -/
  own : ∀ i < k.bucketCount, ∃ x, k.bucketValues[i]? = some x ∧
    k.bucket? (max k.low (min x k.high)) = some i
  /-- There is one value of the domain for each value. -/
  image : ∀ v, ∃! image, k.IsImage v image
  /-- The value of a bucket is near to all values that have it. -/
  near : ∀ v image, k.IsImage v image → ∃ i x, k.bucket? v = some i ∧
    k.bucketValues[i]? = some x ∧ |x - image| ≤ k.resolution / 2

theorem hasTable : k.HasTable where
  mono := by
    intro v w hv hw hvw
    refine ⟨_, _, k.bucket?_exact v, k.bucket?_exact w, ?_⟩
    apply k.bucketOf_mono
    rw [k.bound_of_inDomain hv]
    rw [k.bound_of_inDomain hw]
    exact hvw
  onto := k.exists_bucket?_iff
  closest := by
    intro h v
    apply k.bucket?_congr
    rw [← k.bound_eq_of_line h]
    exact (k.bound_of_inDomain (k.inDomain_bound v)).symm
  turned := by
    intro h v turns
    apply k.bucket?_congr
    exact k.bound_add_turns h v turns
  length := k.length_bucketValues
  own := by
    intro i hi
    exact ⟨_, k.getElem?_bucketValues hi, k.bucket?_bucketValue hi⟩
  image := by
    intro v
    refine ⟨k.bound v, k.isImage_bound v, ?_⟩
    intro image h
    exact (k.bound_of_isImage h).symm
  near := by
    intro v image h
    refine ⟨_, _, k.bucket?_exact v, k.getElem?_bucketValues (k.bucketOf_lt_bucketCount v), ?_⟩
    have hnear := k.abs_bucketValue_sub_bound_le v
    have hstep := k.step_le_resolution
    rw [k.bound_of_isImage h] at hnear
    linarith

end CalendarCode.ScalarCodec
