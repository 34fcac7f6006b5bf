import CalendarCode.Proofs.Scalar.Recovery
import CalendarCode.Proofs.Scalar.Reconstruct
import Mathlib.Order.Bounds.Basic

/-!
This module contains which bucket a code is matched with: the first one of those whose encodings
overlap it most. A code that holds the whole run of a value is matched with a run that it holds, and
a code that holds nothing else is matched with the bucket of this value.
-/

namespace CalendarCode.ScalarCodec

section

variable {α : Type} [Arith α] (k : ScalarCodec α)

structure IsBestMatch (code : Code) (b : Nat) : Prop where
  lt : b < k.bucketCount
  le : ∀ i < k.bucketCount, (k.bucketCode i).overlap code ≤ (k.bucketCode b).overlap code

theorem isBestMatch_bestBucket (code : Code) : k.IsBestMatch code (k.bestBucket code) where
  lt := firstMaximum_lt k.bucketCount_pos
  le := fun _ hi => le_firstMaximum (fun i => (k.bucketCode i).overlap code) hi

theorem overlap_lt_of_lt_bestBucket {code : Code} {b : Nat} (h : b < k.bestBucket code) :
    (k.bucketCode b).overlap code < (k.bucketCode (k.bestBucket code)).overlap code := by
  have hless := lt_firstMaximum h
  exact hless

theorem isLeast_bestBucket (code : Code) :
    IsLeast {b | k.IsBestMatch code b} (k.bestBucket code) := by
  have hbest := k.isBestMatch_bestBucket code
  constructor
  . exact hbest
  . intro b hb
    by_contra hlt
    have hless := k.overlap_lt_of_lt_bestBucket (not_le.mp hlt)
    exact absurd (hb.le _ hbest.lt) (not_le.mpr hless)

@[simp]
theorem size_bucketCode (i : Nat) : (k.bucketCode i).size = k.size :=
  k.size_encode _

end

variable (k : ScalarCodec Rat)

theorem activeCount_bucketCode {i : Nat} (hi : i < k.bucketCount) :
    (k.bucketCode i).activeCount = k.width := by
  rw [k.bucketCode_eq hi]
  exact k.activeCount_runCode (k.hasBucket_of_lt_bucketCount hi)

variable {k} {code : Code} {v : Rat}

theorem Contains.overlap_bucketOf (h : k.Contains code v) (hsize : code.size = k.size) :
    (k.bucketCode (k.bucketOf v)).overlap code = k.width := by
  have hlt := k.bucketOf_lt_bucketCount v
  rw [← k.activeCount_bucketCode hlt]
  rw [Code.overlap_eq_activeCount_iff (by simp [hsize])]
  rw [k.bucketCode_eq hlt]
  rw [← encode_exact]
  exact h

theorem Contains.isActive_of_isBestMatch (h : k.Contains code v) (hsize : code.size = k.size)
    {b : Nat} (hb : k.IsBestMatch code b) :
    ∀ p, (k.bucketCode b).isActive p = true → code.isActive p = true := by
  have hbucket : (k.bucketCode b).size = code.size := by simp [hsize]
  have hmost := Code.overlap_le_activeCount hbucket
  have hown := hb.le (k.bucketOf v) (k.bucketOf_lt_bucketCount v)
  rw [h.overlap_bucketOf hsize] at hown
  rw [k.activeCount_bucketCode hb.lt] at hmost
  rw [← Code.overlap_eq_activeCount_iff hbucket]
  rw [k.activeCount_bucketCode hb.lt]
  omega

theorem bestBucket_of_isActive_iff (hsize : code.size = k.size)
    (h : ∀ p, code.isActive p = true ↔ (k.encode v).isActive p = true) :
    k.bestBucket code = k.bucketOf v := by
  rw [k.bestBucket_congr (Code.activity_congr (by simp [hsize]) h)]
  rw [encode_exact]
  exact k.bestBucket_runCode (k.bucketOf_lt_bucketCount v)

/--
A code is matched with the first of the buckets that it overlaps most. If it holds the run of some
value, the run that it is matched with is one that it holds, and if it holds nothing else, this is
the bucket of the value.
-/
theorem reconstruct_isLeast :
    (∀ {α : Type} [Arith α] [Numeral α] (k : ScalarCodec α) (code : Code), code.size = k.size →
      ∃ b, IsLeast {b | k.IsBestMatch code b} b ∧
        k.reconstruct code = .ok ⟨k.bucketValue b, k.bucketCode b⟩) ∧
    (∀ (k : ScalarCodec Rat) (code : Code) (v : Rat), code.size = k.size → k.Contains code v →
      ∃ bucket, k.reconstruct code = .ok bucket ∧
        ∀ p, bucket.code.isActive p = true → code.isActive p = true) ∧
    (∀ (k : ScalarCodec Rat) (code : Code) (v : Rat), code.size = k.size →
      (∀ p, code.isActive p = true ↔ (k.encode v).isActive p = true) →
      ∃ b, k.bucket? v = some b ∧ k.reconstruct code = k.bucketAt b ∧
        k.bucketAt b = .ok ⟨k.bucketValue b, k.encode v⟩) := by
  refine ⟨?_, ?_, ?_⟩
  . intro α _ _ k code hsize
    exact ⟨_, k.isLeast_bestBucket code, k.reconstruct_eq hsize⟩
  . intro k code v hsize h
    refine ⟨_, k.reconstruct_eq hsize, ?_⟩
    exact h.isActive_of_isBestMatch hsize (k.isBestMatch_bestBucket code)
  . intro k code v hsize h
    refine ⟨_, k.bucket?_exact v, ?_, k.bucketAt_bucketOf v⟩
    rw [k.reconstruct_eq hsize]
    rw [bestBucket_of_isActive_iff hsize h]
    rw [k.bucketAt_bucketOf v]
    unfold bucket
    rw [k.bucketCode_eq (k.bucketOf_lt_bucketCount v)]
    rw [encode_exact]

/-- All buckets of the circle overlap the first code alike, and only one of them is the second. -/
theorem reconstruct_isLeast_tight :
    let full : Code := ⟨List.replicate 6 255⟩
    let other : Code := ⟨[7, 0, 7, 7, 7, 7]⟩
    full.size = tight.size ∧ tight.Contains full 3 ∧
    (∃ b, IsLeast {b | tight.IsBestMatch full b} b ∧ b = 0 ∧
      tight.reconstruct full = .ok ⟨tight.bucketValue b, tight.bucketCode b⟩) ∧
    (∃ bucket, tight.reconstruct full = .ok bucket ∧
      ∀ p, bucket.code.isActive p = true → full.isActive p = true) ∧
    other.size = tight.size ∧
    (∀ p, other.isActive p = true ↔ (tight.encode 4).isActive p = true) ∧
    tight.bucket? 4 = some 4 ∧ tight.reconstruct other = .ok ⟨9 / 2, tight.encode 4⟩ := by
  intro full other
  have hfull : full.size = tight.size := by decide +kernel
  have hother : other.size = tight.size := by decide +kernel
  have hcontains : tight.Contains full 3 := Code.isActive_of_lt_size (by decide +kernel)
  have hactive : ∀ p, other.isActive p = true ↔ (tight.encode 4).isActive p = true := by
    intro p
    constructor
    . exact Code.isActive_of_lt_size (by decide +kernel) p
    . exact Code.isActive_of_lt_size (by decide +kernel) p
  have hfour : tight.bucket? 4 = some 4 := by decide +kernel
  have hvalue : tight.bucketValue 4 = 9 / 2 := by decide +kernel
  have hzero : tight.IsBestMatch full 0 := ⟨by decide +kernel, by decide +kernel⟩
  obtain ⟨b, hleast, hb⟩ := reconstruct_isLeast.1 tight full hfull
  have hle := hleast.2 hzero
  obtain ⟨c, hc, hreconstruct, hinfo⟩ := reconstruct_isLeast.2.2 tight other 4 hother hactive
  rw [hfour] at hc
  cases hc
  rw [hinfo] at hreconstruct
  rw [hvalue] at hreconstruct
  exact ⟨hfull, hcontains, ⟨b, hleast, Nat.le_zero.mp hle, hb⟩,
    reconstruct_isLeast.2.1 tight full 3 hfull hcontains, hother, hactive, hfour, hreconstruct⟩

end CalendarCode.ScalarCodec
