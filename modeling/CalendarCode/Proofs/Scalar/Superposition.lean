import CalendarCode.Proofs.Scalar.Around
import CalendarCode.Proofs.Scalar.Cluster

/-!
This module contains the decoding of superpositions: codes that contain the encodings of some values
and nothing else. Each cluster of the buckets of these values gives the ranges from its first to its
last bucket, as long as there is an end between two clusters.
-/

namespace CalendarCode

def Code.union (a b : Code) : Code :=
  ⟨List.zipWith (· ||| ·) a.bytes b.bytes⟩

theorem Code.size_union {a b : Code} (h : a.size = b.size) : (a.union b).size = b.size := by
  unfold size at h
  simp [union, size, h]

theorem Code.isActive_union {a b : Code} (h : a.size = b.size) (p : Nat) :
    (a.union b).isActive p = true ↔ a.isActive p = true ∨ b.isActive p = true := by
  by_cases hp : p < b.size
  . have hsize := size_union h
    unfold size at h hp hsize
    rw [isActive_eq_getElem _ (by omega)]
    rw [isActive_eq_getElem a (by omega)]
    rw [isActive_eq_getElem b (by omega)]
    simp only [union, List.getElem_zipWith, bne_iff_ne, ne_eq, UInt8.or_eq_zero_iff]
    exact Decidable.not_and_iff_or_not
  . rw [isActive_of_size_le (by rw [size_union h]; omega)]
    rw [isActive_of_size_le (by omega)]
    rw [isActive_of_size_le (by omega)]
    simp

namespace ScalarCodec

section

variable {α : Type} [Arith α] (k : ScalarCodec α)

def superpose (vs : List α) : Code :=
  vs.foldr (fun v code => (k.encode v).union code) (.zeros k.size)

def HasValue (vs : List α) (b : Nat) : Prop :=
  ∃ v ∈ vs, k.bucket? v = some b

instance (vs : List α) (b : Nat) : Decidable (k.HasValue vs b) :=
  inferInstanceAs (Decidable (∃ v ∈ vs, k.bucket? v = some b))

@[simp]
theorem size_superpose (vs : List α) : (k.superpose vs).size = k.size := by
  induction vs with
  | nil => simp [superpose]
  | cons v vs ih =>
    unfold superpose at ih ⊢
    rw [List.foldr_cons]
    rw [Code.size_union]
    . exact ih
    . rw [size_encode]
      exact ih.symm

theorem isActive_superpose (vs : List α) (p : Nat) :
    (k.superpose vs).isActive p = true ↔ ∃ v ∈ vs, (k.encode v).isActive p = true := by
  induction vs with
  | nil => simp [superpose]
  | cons v vs ih =>
    have hsize := k.size_superpose vs
    unfold superpose at ih hsize ⊢
    rw [List.foldr_cons]
    rw [Code.isActive_union]
    . rw [ih]
      simp
    . rw [hsize]
      exact k.size_encode v

end

variable (k : ScalarCodec Rat) {vs : List Rat}

theorem hasBucket_of_hasValue {b : Nat} (h : k.HasValue vs b) : k.HasBucket b := by
  obtain ⟨v, -, hb⟩ := h
  rw [bucket?_exact] at hb
  cases hb
  exact k.hasBucket_bucketOf v

theorem starts_hasValue_iff (s : Int) :
    k.Starts (k.HasValue vs) s ↔ ∃ v ∈ vs, k.Starts (· = k.bucketOf v) s := by
  have hvalue (b : Nat) : k.HasValue vs b ↔ ∃ v ∈ vs, b = k.bucketOf v := by
    simp only [HasValue, bucket?_exact, Option.some.injEq, eq_comm]
  cases h : k.periodic with
  | false =>
    simp only [k.starts_of_line h, hvalue]
    constructor
    . rintro ⟨hs, v, hv, hb⟩
      exact ⟨v, hv, hs, hb⟩
    . rintro ⟨v, hv, hs, hb⟩
      exact ⟨hs, v, hv, hb⟩
  | true => simp only [k.starts_of_circle h, hvalue]

theorem active_row_superpose (p : Int) :
    (k.row (k.superpose vs)).Active p ↔ Covered (k.Starts (k.HasValue vs)) k.width p := by
  have hencode : (k.row (k.superpose vs)).Active p ↔ ∃ v ∈ vs, (k.row (k.encode v)).Active p := by
    cases h : k.periodic with
    | false =>
      simp only [k.active_row_of_line h, isActive_superpose]
      constructor
      . rintro ⟨hp, v, hv, hactive⟩
        exact ⟨v, hv, hp, hactive⟩
      . rintro ⟨v, hv, hp, hactive⟩
        exact ⟨hp, v, hv, hactive⟩
    | true =>
      simp only [k.active_row_of_circle h (k.size_superpose vs),
        k.active_row_of_circle h (k.size_encode _), isActive_superpose]
  rw [hencode]
  simp only [encode_exact, k.active_row_runCode (k.hasBucket_bucketOf _), Covered,
    starts_hasValue_iff]
  constructor
  . rintro ⟨v, hv, s, hs, hp⟩
    exact ⟨s, ⟨v, hv, hs⟩, hp⟩
  . rintro ⟨s, ⟨v, hv, hs⟩, hp⟩
    exact ⟨v, hv, s, hs, hp⟩

theorem active_filled_superpose (p : Int) : (k.filled (k.superpose vs)).Active p
    ↔ Closed (Covered (k.Starts (k.HasValue vs)) k.width) k.halfwidth p := by
  rw [active_filled]
  rw [show (k.row (k.superpose vs)).Active = Covered (k.Starts (k.HasValue vs)) k.width from
    funext fun p => propext (k.active_row_superpose p)]

theorem exists_gap_superpose
    (h : k.periodic = true → ∃ a d, k.IsNext (k.HasValue vs) a d ∧ k.reach < d) :
    ∃ q, ¬(k.filled (k.superpose vs)).Active q := by
  cases hc : k.periodic with
  | false => exact ⟨-1, Row.not_active_of_neg hc (by omega)⟩
  | true =>
    obtain ⟨a, d, hnext, hfar⟩ := h hc
    have hbucket := k.hasBucket_of_hasValue hnext.mem
    have hstart := k.starts_startOf hbucket hnext.mem
    unfold reach at hfar
    -- the gap begins right behind the run of the first of the two
    refine ⟨k.startOf a + k.width, ?_⟩
    rw [active_filled_superpose]
    intro hclosed
    obtain ⟨s, hs, hsp, hps⟩ := exists_start_behind hclosed
    obtain ⟨e, rfl⟩ : ∃ e : Nat, s = k.startOf a + e := ⟨(s - k.startOf a).toNat, by omega⟩
    rw [k.starts_add hstart] at hs
    rw [k.bucketFrom_startOf hbucket] at hs
    exact hnext.between e (by omega) (by omega) hs

def clusterOf (run : Run) : Nat × Nat :=
  (k.bucketFrom run.start, k.bucketFrom (run.start + run.length - k.width))

def clusters (vs : List Rat) : List (Nat × Nat) :=
  (k.filled (k.superpose vs)).runs.map k.clusterOf

section

variable (hgap : ∃ q, ¬(k.filled (k.superpose vs)).Active q)

include hgap

theorem mem_runs_superpose {run : Run} : run ∈ (k.filled (k.superpose vs)).runs
    ↔ run.start < k.size ∧ 0 < run.length ∧
      IsCluster (k.Starts (k.HasValue vs)) k.reach run.start
        (run.start + run.length - k.width) := by
  have hactive : (k.filled (k.superpose vs)).Active
      = Closed (Covered (k.Starts (k.HasValue vs)) k.width) k.halfwidth :=
    funext fun p => propext (k.active_filled_superpose p)
  rw [Row.mem_runs hgap]
  rw [hactive]
  rw [isSegment_closed_covered_iff k.width_pos]
  rw [sub_add_cancel]
  rw [size_filled]
  rw [size_superpose]
  rfl

theorem rangesOf_superpose {run : Run} (h : run ∈ (k.filled (k.superpose vs)).runs) :
    k.rangesOf run = k.arc (k.clusterOf run).1 (k.clusterOf run).2 := by
  have hwidth := k.width_eq
  have hsize := Row.length_le_size hgap h
  rw [mem_runs_superpose k hgap] at h
  obtain ⟨hstart, -, hcluster⟩ := h
  have hle := hcluster.le
  unfold clusterOf
  cases hc : k.periodic with
  | false =>
    rw [k.rangesOf_of_line hc (by omega)]
    rw [k.bucketFrom_of_line hc]
    rw [k.bucketFrom_of_line hc]
    rw [show ((run.start : Int) + run.length - k.width).toNat
      = run.start + run.length - k.width by omega]
    rfl
  | true =>
    rw [size_filled] at hsize
    rw [size_superpose] at hsize
    rw [k.rangesOf_of_circle hc hstart (by omega) hsize]
    rw [k.bucketFrom_of_circle hc]
    rw [k.bucketFrom_of_circle hc]
    rw [show (run.start : Int) + run.length - k.width + k.halfwidth
      = run.start + run.length - 1 - k.halfwidth by omega]

theorem mem_clusters_iff {lo hi : Nat} :
    (lo, hi) ∈ k.clusters vs ↔ k.IsBucketCluster (k.HasValue vs) lo hi := by
  have hbucket (b : Nat) (hb : k.HasValue vs b) : k.HasBucket b := k.hasBucket_of_hasValue hb
  unfold clusters
  rw [List.mem_map]
  constructor
  . rintro ⟨run, hrun, heq⟩
    rw [mem_runs_superpose k hgap] at hrun
    cases heq
    exact k.isBucketCluster_of_isCluster hbucket hrun.2.2
  . intro h
    have hlo := hbucket lo h.first_mem
    -- the run of the first bucket starts at one of the positions of the codec
    obtain ⟨s, hsize, hs, rfl⟩ := k.exists_start_of_mem hlo h.first_mem
    obtain ⟨t, hcluster, rfl⟩ := k.isCluster_of_isBucketCluster hs h
    have hle := hcluster.le
    have hlength : (s : Int) + (t + k.width - s).toNat - k.width = t := by omega
    refine ⟨⟨s, (t + k.width - s).toNat⟩, ?_, ?_⟩
    . rw [mem_runs_superpose k hgap]
      refine ⟨hsize, ?_, ?_⟩
      . have := k.width_pos
        simp only
        omega
      . simp only
        rw [hlength]
        exact hcluster
    . simp only [clusterOf]
      rw [hlength]

end

theorem decode_superpose_of_gap (hvs : vs ≠ [])
    (hgap : ∃ q, ¬(k.filled (k.superpose vs)).Active q) :
    k.decode (k.superpose vs) = .ok (some ⟨(k.clusters vs).flatMap fun c => k.arc c.1 c.2⟩) := by
  obtain ⟨v, hv⟩ := List.exists_mem_of_ne_nil vs hvs
  have hcontains : k.Contains (k.superpose vs) v := by
    intro p hp
    rw [isActive_superpose]
    exact ⟨v, hv, hp⟩
  rw [k.decode_of_contains (k.size_superpose vs) hcontains]
  unfold clusters
  rw [List.flatMap_map]
  rw [List.flatMap_congr]
  intro run hrun
  exact k.rangesOf_superpose hgap hrun

/--
The superposition of the encodings of some values is decoded cluster by cluster, in the order in
which their runs start. A circle needs two neighbouring buckets that are not in one cluster.
-/
theorem decode_superpose (k : ScalarCodec Rat) (vs : List Rat) (hvs : vs ≠ [])
    (hgap : k.periodic = true →
      ∃ a d, k.IsNext (k.HasValue vs) a d ∧ k.width + k.halfwidth < d) :
    ∃ clusters : List (Nat × Nat),
      (∀ lo hi, (lo, hi) ∈ clusters ↔ k.IsBucketCluster (k.HasValue vs) lo hi) ∧
      clusters.Pairwise (fun c d => k.place (k.startOf c.1) < k.place (k.startOf d.1)) ∧
      k.decode (k.superpose vs) = .ok (some ⟨clusters.flatMap fun c => k.arc c.1 c.2⟩) := by
  have hgap := k.exists_gap_superpose hgap
  refine ⟨k.clusters vs, ?_, ?_, ?_⟩
  . intro lo hi
    exact k.mem_clusters_iff hgap
  . unfold clusters
    rw [List.pairwise_map]
    apply List.Pairwise.imp_of_mem ?_ (Row.pairwise_start_runs hgap)
    intro a b ha hb hab
    rw [mem_runs_superpose k hgap] at ha hb
    simp only [clusterOf]
    rw [k.place_startOf_bucketFrom ha.1]
    rw [k.place_startOf_bucketFrom hb.1]
    exact hab
  . exact k.decode_superpose_of_gap hvs hgap

theorem decode_superpose_hours :
    let vs : List Rat := [10, 239 / 10, 9 / 10]
    hours.IsNext (hours.HasValue vs) 1 11 ∧ ∃ clusters : List (Nat × Nat),
      (∀ lo hi, (lo, hi) ∈ clusters ↔ hours.IsBucketCluster (hours.HasValue vs) lo hi) ∧
      clusters.flatMap (fun c => hours.arc c.1 c.2)
        = [(48 / 5, 48 / 5), (116 / 5, 24), (0, 4 / 5)] := by
  intro vs
  have hnext : hours.IsNext (hours.HasValue vs) 1 11 := by
    refine ⟨by decide +kernel, by decide, by decide +kernel, ?_⟩
    intro e hpos hlt
    have hall : ∀ e : Nat, e < 11 → 0 < e → ¬hours.HasValue vs (hours.place ((1 : Nat) + e)) := by
      decide +kernel
    exact hall e hlt hpos
  have hgap : ∃ q, ¬(hours.filled (hours.superpose vs)).Active q :=
    hours.exists_gap_superpose fun _ => ⟨1, 11, hnext, by decide⟩
  obtain ⟨clusters, hclusters, -, hdecode⟩ :=
    decode_superpose hours vs (by decide) fun _ => ⟨1, 11, hnext, by decide⟩
  refine ⟨hnext, clusters, hclusters, ?_⟩
  rw [hours.decode_superpose_of_gap (by decide) hgap] at hdecode
  simp only [Except.ok.injEq, Option.some.injEq, Decoded.mk.injEq] at hdecode
  rw [← hdecode]
  decide +kernel

end ScalarCodec

end CalendarCode
