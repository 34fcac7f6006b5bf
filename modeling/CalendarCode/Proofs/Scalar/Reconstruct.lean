import CalendarCode.Numeral.Exact
import CalendarCode.Proofs.Scalar.Overlap
import CalendarCode.Proofs.Scalar.Ranges

/-!
This module contains the way back from a bucket to its code and its value. The runs of different
buckets do not overlap all the way, so that a code matches its own bucket best. The value that
stands for a bucket lies in it, and less than a resolution away from all other values in it.
-/

namespace CalendarCode

/-- Whether a pair holds the first index below `n` at which a score is largest, and that score. -/
structure IsBest (score : Nat → Nat) (n : Nat) (best : Nat × Nat) : Prop where
  le : ∀ j < n, score j ≤ best.2
  lt : ∀ j < best.1, score j < best.2
  mem : 0 < n → best.1 < n ∧ best.2 = score best.1
  empty : n = 0 → best = (0, 0)

theorem isBest_foldl (score : Nat → Nat) (n : Nat) :
    IsBest score n ((List.range n).foldl
      (fun best i => if best.2 < score i then (i, score i) else best) (0, 0)) := by
  induction n with
  | zero => constructor <;> simp
  | succ n ih =>
    rw [List.range_succ]
    rw [List.foldl_append]
    generalize (List.range n).foldl _ (0, 0) = best at ih
    simp only [List.foldl_cons, List.foldl_nil]
    split
    . next hbetter =>
      constructor
      . intro j hj
        by_cases hlast : j = n
        . rw [hlast]
        . have := ih.le j (by omega)
          simp only
          omega
      . intro j hj
        have := ih.le j hj
        simp only
        omega
      . simp
      . simp
    . next hworse =>
      constructor
      . intro j hj
        by_cases hlast : j = n
        . rw [hlast]
          omega
        . exact ih.le j (by omega)
      . exact ih.lt
      . intro _
        -- the first score does not have to be better than what the search starts with
        by_cases hzero : n = 0
        . rw [ih.empty hzero] at hworse ⊢
          subst hzero
          simp only at hworse ⊢
          omega
        . have := ih.mem (by omega)
          omega
      . simp

theorem firstMaximum_lt {score : Nat → Nat} {n : Nat} (h : 0 < n) : firstMaximum score n < n :=
  ((isBest_foldl score n).mem h).1

theorem le_firstMaximum (score : Nat → Nat) {n j : Nat} (hj : j < n) :
    score j ≤ score (firstMaximum score n) := by
  have hbest := isBest_foldl score n
  have hle := hbest.le j hj
  rw [(hbest.mem (by omega)).2] at hle
  exact hle

theorem lt_firstMaximum {score : Nat → Nat} {n j : Nat} (hj : j < firstMaximum score n) :
    score j < score (firstMaximum score n) := by
  have hbest := isBest_foldl score n
  have hlt := hbest.lt j hj
  by_cases hzero : n = 0
  . subst hzero
    simp [firstMaximum] at hj
  . rw [(hbest.mem (by omega)).2] at hlt
    exact hlt

theorem firstMaximum_eq {score : Nat → Nat} {n i : Nat} (hi : i < n)
    (h : ∀ j < n, j ≠ i → score j < score i) : firstMaximum score n = i := by
  by_contra hne
  have hlt := h _ (firstMaximum_lt (by omega)) hne
  have hle := le_firstMaximum score hi
  omega

namespace ScalarCodec

section

variable {α : Type} [Arith α] (k : ScalarCodec α)

theorem bestBucket_congr {a b : Code} (h : a.activity = b.activity) :
    k.bestBucket a = k.bestBucket b := by
  unfold bestBucket
  simp only [Code.overlap_congr _ h]

theorem bucketCount_pos : 0 < k.bucketCount := by
  have hsize := k.size_pos
  unfold ScalarConfig.bucketCount
  split
  . next h =>
    unfold ScalarConfig.innerSize ScalarConfig.padding
    rw [if_pos h]
    omega
  . omega

theorem reconstruct_eq [Numeral α] {code : Code} (h : code.size = k.size) :
    k.reconstruct code = .ok (k.bucket (k.bestBucket code)) := by
  unfold reconstruct bucketAt
  rw [if_pos h]
  exact if_pos (firstMaximum_lt k.bucketCount_pos)

theorem activeCount_runCode {b : Nat} (hb : k.HasBucket b) :
    (k.runCode b).activeCount = k.width := by
  cases h : k.periodic with
  | false => exact (k.hasRun_of_line h ((k.hasBucket_of_line h).mp hb)).activeCount
  | true => exact (k.hasRun_of_circle h b).activeCount

theorem overlap_runCode_self {b : Nat} (hb : k.HasBucket b) :
    (k.runCode b).overlap (k.runCode b) = k.width := by
  rw [k.overlap_runCode hb hb]
  rw [k.shared_eq_width_iff hb hb]

theorem overlap_runCode_lt {i b : Nat} (hi : k.HasBucket i) (hb : k.HasBucket b) (h : i ≠ b) :
    (k.runCode i).overlap (k.runCode b) < k.width := by
  have hsize : (k.runCode i).size = (k.runCode b).size := by simp
  apply Nat.lt_of_le_of_ne
  . rw [← k.activeCount_runCode hi]
    exact Code.overlap_le_activeCount hsize
  . rw [k.overlap_runCode hi hb]
    rw [k.shared_eq_width_iff hi hb]
    exact h

end

variable (k : ScalarCodec Rat)

theorem bucketOf_eq {v : Rat} {i : Nat} (hlow : k.low + (i - k.lead) * k.step ≤ k.bound v)
    (hhigh : k.bound v < k.low + (i + 1 - k.lead) * k.step) : k.bucketOf v = i := by
  have hfloor : ⌊(k.bound v - k.low) / k.step + k.lead⌋ = (i : Int) := by
    rw [Int.floor_eq_iff]
    rw [← sub_le_iff_le_add]
    rw [← lt_sub_iff_add_lt]
    rw [le_div_iff₀ k.step_pos]
    rw [div_lt_iff₀ k.step_pos]
    push_cast
    constructor
    . linarith
    . linarith
  rw [← bucketOf_cast] at hfloor
  exact_mod_cast hfloor

theorem bound_high_of_line (h : k.periodic = false) : k.bound k.high = k.high := by
  apply k.bound_of_mem k.low_le_high (le_refl k.high)
  rw [h]
  intro
  contradiction

theorem bucketCount_of_line (h : k.periodic = false) :
    k.bucketCount = k.bucketOf k.high + 1 := by
  simp only [ScalarConfig.bucketCount, h, Bool.false_eq_true, ↓reduceIte, start?_exact,
    Option.getD_some]
  rw [k.startOf_of_line h]
  rw [Int.toNat_natCast]

theorem bucketOf_lt_bucketCount (v : Rat) : k.bucketOf v < k.bucketCount := by
  cases h : k.periodic with
  | false =>
    rw [k.bucketCount_of_line h]
    apply Nat.lt_succ_of_le
    apply k.bucketOf_mono
    rw [k.bound_high_of_line h]
    exact k.bound_le_high v
  | true =>
    rw [k.bucketCount_of_circle h]
    exact k.bucketOf_lt_size h v

theorem hasBucket_of_lt_bucketCount {i : Nat} (hi : i < k.bucketCount) : k.HasBucket i := by
  cases h : k.periodic with
  | false =>
    have := k.bucketOf_add_width_le h k.high
    rw [k.bucketCount_of_line h] at hi
    rw [k.hasBucket_of_line h]
    omega
  | true =>
    rw [k.bucketCount_of_circle h] at hi
    exact (k.hasBucket_of_circle h).mpr hi

theorem bucketValue_eq (i : Nat) : k.bucketValue i = k.low + (i + 1 / 2 - k.lead) * k.step := by
  cases h : k.periodic with
  | false =>
    have hexact : k.bucketValue i = k.low + (i : Rat) * k.resolution := by
      simp only [bucketValue, h, Bool.false_eq_true, ↓reduceIte]
      rfl
    rw [hexact]
    rw [k.lead_of_line h]
    rw [k.step_of_line h]
    rw [add_sub_cancel_right]
  | true =>
    have hexact : k.bucketValue i
        = k.low + ((i : Rat) + 1 / 2) * (k.range / (k.innerSize : Nat)) := by
      simp only [bucketValue, h, ↓reduceIte]
      rfl
    rw [hexact]
    rw [k.lead_of_circle h]
    rw [k.range_of_circle h]
    rw [k.innerSize_of_circle h]
    rw [k.step_of_circle h]
    rw [sub_zero]

theorem abs_bucketValue_sub_bound_le (v : Rat) :
    |k.bucketValue (k.bucketOf v) - k.bound v| ≤ k.step / 2 := by
  have hlow := k.bucketOf_lead_le v
  have hhigh := k.lt_bucketOf_lead v
  rw [bucketValue_eq]
  rw [abs_le]
  constructor
  . linarith
  . linarith

theorem abs_bucketValue_sub_bound_lt (v : Rat) :
    |k.bucketValue (k.bucketOf v) - k.bound v| < k.resolution := by
  have hstep := k.step_pos
  have hres := k.step_le_resolution
  apply lt_of_le_of_lt (k.abs_bucketValue_sub_bound_le v)
  linarith

theorem bucketOf_bucketValue_of_mem {i : Nat} (hi : k.low ≤ k.bucketValue i)
    (hhigh : k.bucketValue i ≤ k.high) (hcircle : k.periodic = true → k.bucketValue i < k.high) :
    k.bucketOf (k.bucketValue i) = i := by
  have hstep := k.step_pos
  have hbound := k.bound_of_mem hi hhigh hcircle
  rw [bucketValue_eq] at hbound ⊢
  apply k.bucketOf_eq
  . rw [hbound]
    linarith
  . rw [hbound]
    linarith

theorem low_le_bucketValue (i : Nat) : k.low ≤ k.bucketValue i := by
  have hmul := mul_nonneg (Nat.cast_nonneg (α := Rat) i) (le_of_lt k.step_pos)
  rw [bucketValue_eq]
  cases h : k.periodic with
  | false =>
    rw [k.lead_of_line h]
    linarith
  | true =>
    have hstep := k.step_pos
    rw [k.lead_of_circle h]
    linarith

theorem bucketValue_lt_high (h : k.periodic = true) {i : Nat} (hi : i < k.bucketCount) :
    k.bucketValue i < k.high := by
  have hstep := k.step_pos
  rw [k.bucketCount_of_circle h] at hi
  have hcast : ((i + 1 : Nat) : Rat) ≤ k.size := by exact_mod_cast hi
  have hmul := mul_le_mul_of_nonneg_right hcast (le_of_lt hstep)
  push_cast at hmul
  rw [bucketValue_eq]
  rw [k.lead_of_circle h]
  rw [k.high_eq_of_circle h]
  linarith

theorem bucketOf_high_le (h : k.periodic = false) {i : Nat} (hi : k.high < k.bucketValue i) :
    k.bucketOf k.high ≤ i := by
  have hlead := k.bucketOf_lead_le k.high
  rw [k.bound_high_of_line h] at hlead
  rw [bucketValue_eq] at hi
  have hmul : (k.bucketOf k.high : Rat) * k.step < (i + 1) * k.step := by linarith [k.step_pos]
  have hlt := lt_of_mul_lt_mul_right hmul (le_of_lt k.step_pos)
  have hlt : k.bucketOf k.high < i + 1 := by exact_mod_cast hlt
  exact Nat.le_of_lt_succ hlt

theorem bucketOf_clamp_bucketValue {i : Nat} (hi : i < k.bucketCount) :
    k.bucketOf (Arith.clamp k.low k.high (k.bucketValue i)) = i := by
  have hlow := k.low_le_bucketValue i
  by_cases hhigh : k.bucketValue i ≤ k.high
  . rw [Arith.clamp_of_mem hlow hhigh]
    exact k.bucketOf_bucketValue_of_mem hlow hhigh fun h => k.bucketValue_lt_high h hi
  . -- only the value of the last bucket of a line may lie beyond the upper end
    have h : k.periodic = false := by
      by_contra hcircle
      exact hhigh (le_of_lt (k.bucketValue_lt_high (eq_true_of_ne_false hcircle) hi))
    have hclamp : Arith.clamp k.low k.high (k.bucketValue i) = k.high := by
      rw [Arith.clamp_eq _ _ _ k.low_le_high]
      rw [min_eq_right (le_of_lt (not_le.mp hhigh))]
      exact max_eq_right k.low_le_high
    have hle := k.bucketOf_high_le h (not_le.mp hhigh)
    rw [k.bucketCount_of_line h] at hi
    rw [hclamp]
    omega

theorem bucketCode_eq {i : Nat} (hi : i < k.bucketCount) : k.bucketCode i = k.runCode i := by
  unfold bucketCode
  rw [encode_exact]
  rw [k.bucketOf_clamp_bucketValue hi]

theorem bestBucket_runCode {b : Nat} (hb : b < k.bucketCount) : k.bestBucket (k.runCode b) = b := by
  have hbucket := k.hasBucket_of_lt_bucketCount hb
  apply firstMaximum_eq hb
  intro i hi hne
  rw [k.bucketCode_eq hi]
  rw [k.bucketCode_eq hb]
  rw [k.overlap_runCode_self hbucket]
  exact k.overlap_runCode_lt (k.hasBucket_of_lt_bucketCount hi) hbucket hne

theorem bucketAt_bucketOf (v : Rat) :
    k.bucketAt (k.bucketOf v) = .ok ⟨k.bucketValue (k.bucketOf v), k.encode v⟩ := by
  have hlt := k.bucketOf_lt_bucketCount v
  simp only [bucketAt, hlt, ↓reduceIte, bucket]
  rw [k.bucketCode_eq hlt]
  rw [encode_exact]

theorem reconstruct_encode (v : Rat) : k.reconstruct (k.encode v) = k.bucketAt (k.bucketOf v) := by
  simp only [reconstruct, size_encode, ↓reduceIte]
  rw [encode_exact]
  rw [k.bestBucket_runCode (k.bucketOf_lt_bucketCount v)]

end ScalarCodec

end CalendarCode
