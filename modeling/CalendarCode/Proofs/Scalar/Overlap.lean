import CalendarCode.Proofs.Code.Overlap
import CalendarCode.Proofs.Scalar.Starts

/-!
This module contains the overlap of the encodings of two values, as far as they are whole runs. It
depends only on the distance of the two buckets, and it never grows with that distance. On a circle
two runs may meet at both ends, so that the distances both ways round count.
-/

namespace CalendarCode

theorem countP_range_outside {p : Nat → Bool} {a b n : Nat} (h : a ≤ b)
    (hp : ∀ t < n, p t = true ↔ t < a ∨ b ≤ t) :
    (List.range n).countP p = min n a + (n - b) := by
  induction n with
  | zero => simp
  | succ n ih =>
    rw [List.range_succ]
    rw [List.countP_append]
    rw [ih fun t ht => hp t (by omega)]
    rw [List.countP_singleton]
    have hlast := hp n (by omega)
    split
    . next hn =>
      rw [hlast] at hn
      omega
    . next hn =>
      rw [hlast] at hn
      omega

theorem emod_lt_iff {n w e t : Nat} (hw : w < n) (he : e < n) (ht : t < w) :
    ((e : Int) + t) % (n : Int) < w ↔ t < w - e ∨ n - e ≤ t := by
  by_cases hturn : e + t < n
  . rw [Int.emod_eq_of_lt (by omega) (by omega)]
    omega
  . rw [← Int.sub_emod_right]
    rw [Int.emod_eq_of_lt (by omega) (by omega)]
    omega

namespace ScalarCodec

section

variable {α : Type} [Arith α] (k : ScalarCodec α)

/-- The number of positions that two runs have in common, by the distance of their buckets. -/
def shared (d : Nat) : Nat :=
  if k.periodic then (k.width - min k.width d) + (k.width - min k.width (k.size - d))
  else k.width - min k.width d

/-- The distance of two buckets, on a circle the shorter way round. -/
def gap (i j : Nat) : Nat :=
  let d := ((i : Int) - j).natAbs
  if k.periodic then min d (k.size - d) else d

theorem shared_of_circle (h : k.periodic = true) (d : Nat) : k.shared d
    = (k.width - min k.width d) + (k.width - min k.width (k.size - d)) := by
  simp [shared, h]

theorem shared_of_line (h : k.periodic = false) (d : Nat) :
    k.shared d = k.width - min k.width d := by
  simp [shared, h]

theorem gap_of_circle (h : k.periodic = true) (i j : Nat) :
    k.gap i j = min ((i : Int) - j).natAbs (k.size - ((i : Int) - j).natAbs) := by
  simp [gap, h]

theorem gap_of_line (h : k.periodic = false) (i j : Nat) : k.gap i j = ((i : Int) - j).natAbs := by
  simp [gap, h]

theorem overlap_runCode_of_turn (h : k.periodic = true) {i j e : Nat} (he : e < k.size)
    (hturn : ((i : Int) - j) % (k.size : Int) = e) : (k.runCode i).overlap (k.runCode j)
      = (k.width - min k.width e) + (k.width - min k.width (k.size - e)) := by
  have hwidth := k.width_lt_size
  rw [Code.overlap_eq_length (by simp)]
  rw [((k.perm_runPositions_of_circle h i).filter _).length_eq]
  rw [← List.countP_eq_length_filter]
  unfold runPositions
  rw [List.countP_map]
  rw [countP_range_outside (a := k.width - e) (b := k.size - e) (by omega)]
  . omega
  . intro t ht
    rw [Function.comp_apply]
    rw [k.isActive_runCode_of_circle h]
    rw [k.place_of_circle h]
    rw [Int.emod_sub_emod]
    rw [k.startOf_of_circle h]
    rw [k.startOf_of_circle h]
    rw [show (i : Int) - k.halfwidth + t - (j - k.halfwidth) = i - j + t by omega]
    rw [← Int.emod_add_emod]
    rw [hturn]
    rw [emod_lt_iff hwidth he ht]
    exact and_iff_right (k.place_lt_size h _)

theorem overlap_runCode_of_circle (h : k.periodic = true) {i j : Nat} (hi : i < k.size)
    (hj : j < k.size) :
    (k.runCode i).overlap (k.runCode j) = k.shared ((i : Int) - j).natAbs := by
  rw [k.shared_of_circle h]
  by_cases hij : j ≤ i
  . rw [k.overlap_runCode_of_turn h (e := i - j) (by omega)]
    . rw [show ((i : Int) - j).natAbs = i - j by omega]
    . rw [Int.emod_eq_of_lt (by omega) (by omega)]
      omega
  . -- the turn from the second bucket to the first one is what is left of the circle
    rw [k.overlap_runCode_of_turn h (e := k.size - (j - i)) (by omega)]
    . rw [show ((i : Int) - j).natAbs = j - i by omega]
      rw [show k.size - (k.size - (j - i)) = j - i by omega]
      exact Nat.add_comm _ _
    . rw [← Int.add_emod_right]
      rw [Int.emod_eq_of_lt (by omega) (by omega)]
      omega

theorem overlap_runCode_of_line (h : k.periodic = false) {i j : Nat} (hi : i + k.width ≤ k.size) :
    (k.runCode i).overlap (k.runCode j) = k.shared ((i : Int) - j).natAbs := by
  have hcommon (t : Nat) (ht : t < k.width) : (k.runCode j).isActive (i + t) = true
      ↔ i + t < j + k.width ∧ j ≤ i + t := by
    rw [k.isActive_runCode_of_line h]
    omega
  rw [k.shared_of_line h]
  rw [Code.overlap_eq_length (by simp)]
  rw [k.activePositions_runCode_of_line h hi]
  rw [k.runPositions_of_line h]
  rw [← List.countP_eq_length_filter]
  rw [List.range'_eq_map_range]
  rw [List.countP_map]
  by_cases hij : i ≤ j
  . rw [countP_range_outside (a := 0) (b := j - i) (by omega)]
    . omega
    . intro t ht
      rw [Function.comp_apply]
      rw [hcommon t ht]
      omega
  . rw [countP_range_outside (a := k.width - (i - j)) (b := k.width) (by omega)]
    . omega
    . intro t ht
      rw [Function.comp_apply]
      rw [hcommon t ht]
      omega

theorem overlap_runCode {i j : Nat} (hi : k.HasBucket i) (hj : k.HasBucket j) :
    (k.runCode i).overlap (k.runCode j) = k.shared ((i : Int) - j).natAbs := by
  cases h : k.periodic with
  | false =>
    rw [k.hasBucket_of_line h] at hi
    exact k.overlap_runCode_of_line h hi
  | true =>
    rw [k.hasBucket_of_circle h] at hi hj
    exact k.overlap_runCode_of_circle h hi hj

theorem shared_eq_width_iff {i j : Nat} (hi : k.HasBucket i) (hj : k.HasBucket j) :
    k.shared ((i : Int) - j).natAbs = k.width ↔ i = j := by
  have hwidth := k.width_lt_size
  have hpos := k.width_pos
  cases h : k.periodic with
  | false =>
    rw [k.shared_of_line h]
    omega
  | true =>
    rw [k.hasBucket_of_circle h] at hi hj
    rw [k.shared_of_circle h]
    omega

theorem shared_anti {d e : Nat} (h : d ≤ e) (hround : k.periodic = true → 2 * e ≤ k.size) :
    k.shared e ≤ k.shared d := by
  have hwidth := k.width_lt_size
  cases hc : k.periodic with
  | false =>
    rw [k.shared_of_line hc]
    rw [k.shared_of_line hc]
    omega
  | true =>
    have hround := hround hc
    rw [k.shared_of_circle hc]
    rw [k.shared_of_circle hc]
    omega

theorem shared_gap {i j : Nat} (hi : k.HasBucket i) (hj : k.HasBucket j) :
    k.shared (k.gap i j) = k.shared ((i : Int) - j).natAbs := by
  cases h : k.periodic with
  | false => rw [k.gap_of_line h]
  | true =>
    rw [k.hasBucket_of_circle h] at hi hj
    rw [k.gap_of_circle h]
    generalize hd : ((i : Int) - j).natAbs = d
    rcases Nat.le_total d (k.size - d) with hle | hle
    . rw [Nat.min_eq_left hle]
    . -- both ways round count, so it does not matter which one is the shorter
      rw [Nat.min_eq_right hle]
      rw [k.shared_of_circle h]
      rw [k.shared_of_circle h]
      rw [Nat.sub_sub_self (by omega)]
      exact Nat.add_comm _ _

theorem two_mul_gap_le (h : k.periodic = true) (i j : Nat) : 2 * k.gap i j ≤ k.size := by
  rw [k.gap_of_circle h]
  omega

def WritesRun (v : α) : Prop :=
  ∃ b, k.bucket? v = some b ∧ k.HasBucket b ∧ k.encode v = k.runCode b

theorem writesRun_of_circle (h : k.periodic = true) {v : α} (hv : Arith.isFinite v = true)
    (hend : ¬k.Overflows v) : k.WritesRun v := by
  obtain ⟨b, hb, hlt, hcode⟩ := k.encode_of_circle h hv hend
  exact ⟨b, hb, (k.hasBucket_of_circle h).mpr hlt, hcode⟩

theorem writesRun_of_line (h : k.periodic = false) {v : α} {b : Nat} (hb : k.bucket? v = some b)
    (hlast : b + k.width ≤ k.size) : k.WritesRun v :=
  ⟨b, hb, (k.hasBucket_of_line h).mpr hlast, k.encode_of_line h hb hlast⟩

theorem writesRun_of_runFits {v : α} (hv : Arith.isFinite v = true) (h : k.RunFits v) :
    k.WritesRun v := by
  cases hc : k.periodic with
  | false =>
    obtain ⟨b, hb⟩ := k.exists_bucket? hv
    exact k.writesRun_of_line hc hb ((k.runFits_of_line hc hb).mp h)
  | true => exact k.writesRun_of_circle hc hv ((k.runFits_of_circle hc v).mp h)

theorem writesRun_exact (k : ScalarCodec Rat) (v : Rat) : k.WritesRun v :=
  ⟨k.bucketOf v, k.bucket?_exact v, k.hasBucket_bucketOf v, k.encode_exact v⟩

/-- Whether the overlap of encodings measures how far the buckets of some values are apart. -/
structure MeasuresDistance (A : α → Prop) : Prop where
  /-- All overlaps are those of the distances of the buckets. -/
  overlap : ∀ v w : α, A v → A w →
    ∃ i j, k.bucket? v = some i ∧ k.bucket? w = some j ∧
      (k.encode v).overlap (k.encode w) = k.shared ((i : Int) - j).natAbs
  /-- Only encodings of one bucket overlap all the way. -/
  full : ∀ (v w : α) (i j : Nat), A v → A w → k.bucket? v = some i → k.bucket? w = some j →
    ((k.encode v).overlap (k.encode w) = k.width ↔ i = j)
  /-- Buckets that are further apart do not overlap more. -/
  anti : ∀ (v w v' w' : α) (i j i' j' : Nat), A v → A w → A v' → A w' →
    k.bucket? v = some i → k.bucket? w = some j → k.bucket? v' = some i' → k.bucket? w' = some j' →
      k.gap i j ≤ k.gap i' j' →
        (k.encode v').overlap (k.encode w') ≤ (k.encode v).overlap (k.encode w)

variable {k}

theorem WritesRun.of_bucket? {v : α} (hv : k.WritesRun v) {b : Nat} (h : k.bucket? v = some b) :
    k.HasBucket b ∧ k.encode v = k.runCode b := by
  obtain ⟨b', hb', hbucket, hcode⟩ := hv
  rw [h] at hb'
  cases hb'
  exact ⟨hbucket, hcode⟩

theorem WritesRun.overlap_eq_shared {v w : α} (hv : k.WritesRun v) (hw : k.WritesRun w) {i j : Nat}
    (hi : k.bucket? v = some i) (hj : k.bucket? w = some j) :
    (k.encode v).overlap (k.encode w) = k.shared ((i : Int) - j).natAbs := by
  obtain ⟨hbucket, hcode⟩ := hv.of_bucket? hi
  obtain ⟨hbucket', hcode'⟩ := hw.of_bucket? hj
  rw [hcode]
  rw [hcode']
  exact k.overlap_runCode hbucket hbucket'

theorem measuresDistance {A : α → Prop} (hA : ∀ v, A v → k.WritesRun v) :
    k.MeasuresDistance A where
  overlap := by
    intro v w hv hw
    obtain ⟨i, hi, -⟩ := hA v hv
    obtain ⟨j, hj, -⟩ := hA w hw
    exact ⟨i, j, hi, hj, (hA v hv).overlap_eq_shared (hA w hw) hi hj⟩
  full := by
    intro v w i j hv hw hi hj
    rw [(hA v hv).overlap_eq_shared (hA w hw) hi hj]
    exact k.shared_eq_width_iff ((hA v hv).of_bucket? hi).1 ((hA w hw).of_bucket? hj).1
  anti := by
    intro v w v' w' i j i' j' hv hw hv' hw' hi hj hi' hj' hgap
    obtain ⟨hbi, -⟩ := (hA v hv).of_bucket? hi
    obtain ⟨hbj, -⟩ := (hA w hw).of_bucket? hj
    obtain ⟨hbi', -⟩ := (hA v' hv').of_bucket? hi'
    obtain ⟨hbj', -⟩ := (hA w' hw').of_bucket? hj'
    rw [(hA v hv).overlap_eq_shared (hA w hw) hi hj]
    rw [(hA v' hv').overlap_eq_shared (hA w' hw') hi' hj']
    rw [← k.shared_gap hbi hbj]
    rw [← k.shared_gap hbi' hbj']
    exact k.shared_anti hgap fun h => k.two_mul_gap_le h i' j'

theorem overlap_of_not_runFits (hc : k.periodic = true) {v : α} (h : ¬k.RunFits v) (code : Code) :
    (k.encode v).overlap code = 0 := by
  rw [k.runFits_of_circle hc, not_not] at h
  rw [k.encode_of_overflows h]
  exact Code.overlap_zeros k.size code

theorem overlap_encode_eq_shared_iff (hc : k.periodic = true) {v w : α} {i j : Nat}
    (hi : k.bucket? v = some i) (hj : k.bucket? w = some j) :
    (k.encode v).overlap (k.encode w) = k.shared ((i : Int) - j).natAbs ↔
      (k.RunFits v ∧ k.RunFits w) ∨ k.shared ((i : Int) - j).natAbs = 0 := by
  by_cases hv : k.RunFits v
  . by_cases hw : k.RunFits w
    . have hrunv := k.writesRun_of_runFits (k.isFinite_of_bucket? hi) hv
      have hrunw := k.writesRun_of_runFits (k.isFinite_of_bucket? hj) hw
      simp [hrunv.overlap_eq_shared hrunw hi hj, hv, hw]
    . rw [Code.overlap_comm]
      simp [overlap_of_not_runFits hc hw, hw, eq_comm]
  . simp [overlap_of_not_runFits hc hv, hv, eq_comm]

end

variable (k : ScalarCodec Rat)

theorem overlap_encode_exact (v w : Rat) : (k.encode v).overlap (k.encode w)
    = k.shared ((k.bucketOf v : Int) - k.bucketOf w).natAbs :=
  (k.writesRun_exact v).overlap_eq_shared (k.writesRun_exact w) (k.bucket?_exact v)
    (k.bucket?_exact w)

theorem bound_mono_of_line (h : k.periodic = false) {v w : Rat} (hvw : v ≤ w) :
    k.bound v ≤ k.bound w := by
  rw [k.bound_of_line h]
  rw [k.bound_of_line h]
  rw [Arith.clamp_eq _ _ _ k.low_le_high]
  rw [Arith.clamp_eq _ _ _ k.low_le_high]
  exact max_le_max_left _ (min_le_min_right _ hvw)

theorem overlap_encode_le_of_line (h : k.periodic = false) {u v w : Rat} (huv : u ≤ v)
    (hvw : v ≤ w) : (k.encode u).overlap (k.encode w)
      ≤ min ((k.encode u).overlap (k.encode v)) ((k.encode v).overlap (k.encode w)) := by
  have huv := k.bucketOf_mono (k.bound_mono_of_line h huv)
  have hvw := k.bucketOf_mono (k.bound_mono_of_line h hvw)
  rw [overlap_encode_exact]
  rw [overlap_encode_exact]
  rw [overlap_encode_exact]
  rw [k.shared_of_line h]
  rw [k.shared_of_line h]
  rw [k.shared_of_line h]
  omega

end ScalarCodec

end CalendarCode
