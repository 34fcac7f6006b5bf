import CalendarCode.Arith.Rounded
import CalendarCode.Proofs.Code.Active
import CalendarCode.Proofs.Scalar.Bucket

/-!
This module contains the runs that codecs write. The encoding of a value is the run of its bucket:
on a circle unless the run ends beyond all words, and on a line unless it ends beyond the line.
Neither happens if the arithmetic is exact. A run never meets itself, because a codec has more
positions than are active at once.
-/

namespace CalendarCode

theorem inRun_circle {n : Nat} (h : 0 < n) (start : Int) (length p : Nat) :
    inRun true n start length p = true ↔ ((p : Int) - start) % n < length := by
  have := Int.emod_nonneg ((p : Int) - start) (show (n : Int) ≠ 0 by omega)
  simp only [inRun, ↓reduceIte, Bool.and_eq_true, decide_eq_true_eq]
  omega

theorem inRun_line (n : Nat) (start : Int) (length p : Nat) :
    inRun false n start length p = true ↔ start ≤ p ∧ (p : Int) < start + length := by
  simp only [inRun, Bool.false_eq_true, ↓reduceIte, Bool.and_eq_true, decide_eq_true_eq]
  omega

theorem inRun_congr {n : Nat} {s t : Int} (h : s % n = t % n) (length : Nat) :
    inRun true n s length = inRun true n t length := by
  funext p
  have : ((p : Int) - s) % n = ((p : Int) - t) % n := by
    rw [Int.sub_emod]
    rw [h]
    rw [← Int.sub_emod]
  simp only [inRun, ↓reduceIte, this]

namespace ScalarCodec

section

variable {α : Type} [Arith α] (k : ScalarCodec α)

/-- The position with an index. On a circle, the indices go round and round. -/
def place (p : Int) : Nat :=
  if k.periodic then (p % (k.size : Int)).toNat else p.toNat

/-- The index at which the run of a bucket starts. On a circle it may be negative. -/
def startOf (b : Nat) : Int :=
  if k.periodic then (b : Int) - k.halfwidth else b

def runCode (b : Nat) : Code :=
  .ofFn k.size (inRun k.periodic k.size (k.startOf b) k.width)

theorem place_of_circle (h : k.periodic = true) (p : Int) :
    (k.place p : Int) = p % (k.size : Int) := by
  have := k.size_pos
  simp only [place, h, ↓reduceIte]
  apply Int.toNat_of_nonneg
  apply Int.emod_nonneg
  omega

theorem place_of_line (h : k.periodic = false) (p : Int) : k.place p = p.toNat := by
  simp [place, h]

theorem place_lt_size (h : k.periodic = true) (p : Int) : k.place p < k.size := by
  have := k.size_pos
  have := Int.emod_lt_of_pos p (show (0 : Int) < k.size by omega)
  have := k.place_of_circle h p
  omega

theorem place_of_lt (h : k.periodic = true) {p : Nat} (hp : p < k.size) : k.place p = p := by
  have := k.place_of_circle h p
  rw [Int.emod_eq_of_lt (by omega) (by omega)] at this
  omega

theorem place_add_size (h : k.periodic = true) (p : Int) : k.place (p + k.size) = k.place p := by
  simp [place, h]

theorem place_congr (h : k.periodic = true) {p q : Int} :
    k.place p = k.place q ↔ p % (k.size : Int) = q % (k.size : Int) := by
  rw [← Int.natCast_inj]
  rw [k.place_of_circle h]
  rw [k.place_of_circle h]

theorem place_place_add (h : k.periodic = true) (p d : Int) :
    k.place ((k.place p : Int) + d) = k.place (p + d) := by
  rw [k.place_congr h]
  rw [k.place_of_circle h]
  rw [Int.emod_add_emod]

theorem startOf_of_circle (h : k.periodic = true) (b : Nat) :
    k.startOf b = (b : Int) - k.halfwidth := by
  simp [startOf, h]

theorem startOf_of_line (h : k.periodic = false) (b : Nat) : k.startOf b = b := by
  simp [startOf, h]

@[simp]
theorem size_runCode (b : Nat) : (k.runCode b).size = k.size := by
  simp [runCode]

theorem isBinary_runCode (b : Nat) : (k.runCode b).IsBinary := by
  apply Code.isBinary_ofFn

theorem isActive_runCode_of_circle (h : k.periodic = true) (b p : Nat) :
    (k.runCode b).isActive p = true
      ↔ p < k.size ∧ ((p : Int) - k.startOf b) % (k.size : Int) < k.width := by
  simp only [runCode, h, Code.isActive_ofFn, Bool.and_eq_true, decide_eq_true_eq]
  rw [inRun_circle k.size_pos]

theorem isActive_runCode_of_line (h : k.periodic = false) (b p : Nat) :
    (k.runCode b).isActive p = true ↔ p < k.size ∧ b ≤ p ∧ p < b + k.width := by
  simp only [runCode, h, Code.isActive_ofFn, Bool.and_eq_true, decide_eq_true_eq]
  rw [inRun_line]
  rw [k.startOf_of_line h]
  omega

theorem isBinary_encode (v : α) : (k.encode v).IsBinary := by
  unfold encode
  split
  . apply Code.isBinary_ofFn
  . apply Code.isBinary_zeros

def runPositions (b : Nat) : List Nat :=
  (List.range k.width).map fun (i : Nat) => k.place (k.startOf b + i)

theorem mem_runPositions_of_circle (h : k.periodic = true) (b p : Nat) :
    p ∈ k.runPositions b ↔ (k.runCode b).isActive p = true := by
  have hsize := k.size_pos
  have hwidth := k.width_lt_size
  rw [k.isActive_runCode_of_circle h]
  simp only [runPositions, List.mem_map, List.mem_range]
  constructor
  . rintro ⟨i, hi, rfl⟩
    have hdiff : (k.startOf b + i - k.startOf b) % (k.size : Int) = i := by
      rw [add_sub_cancel_left]
      apply Int.emod_eq_of_lt
      . omega
      . omega
    rw [k.place_of_circle h]
    rw [Int.emod_sub_emod]
    rw [hdiff]
    have := k.place_lt_size h (k.startOf b + i)
    omega
  . rintro ⟨hp, hrun⟩
    have hnonneg := Int.emod_nonneg ((p : Int) - k.startOf b) (show (k.size : Int) ≠ 0 by omega)
    refine ⟨(((p : Int) - k.startOf b) % (k.size : Int)).toNat, by omega, ?_⟩
    apply Int.natCast_inj.mp
    rw [k.place_of_circle h]
    rw [Int.toNat_of_nonneg hnonneg]
    rw [Int.add_emod_emod]
    rw [add_sub_cancel]
    apply Int.emod_eq_of_lt
    . omega
    . omega

theorem nodup_runPositions_of_circle (h : k.periodic = true) (b : Nat) :
    (k.runPositions b).Nodup := by
  have hwidth := k.width_lt_size
  apply List.Nodup.map_on
  . intro i hi j hj hij
    simp only [List.mem_range] at hi hj
    have hij : (k.place (k.startOf b + i) : Int) = k.place (k.startOf b + j) := by rw [hij]
    rw [k.place_of_circle h] at hij
    rw [k.place_of_circle h] at hij
    rw [Int.emod_add_cancel_left] at hij
    rw [Int.emod_eq_of_lt (by omega) (by omega)] at hij
    rw [Int.emod_eq_of_lt (by omega) (by omega)] at hij
    omega
  . exact List.nodup_range

theorem runPositions_of_line (h : k.periodic = false) (b : Nat) :
    k.runPositions b = List.range' b k.width := by
  rw [List.range'_eq_map_range]
  apply List.map_congr_left
  intro i hi
  rw [k.place_of_line h]
  rw [k.startOf_of_line h]
  omega

@[simp]
theorem length_runPositions (b : Nat) : (k.runPositions b).length = k.width := by
  simp [runPositions]

theorem perm_runPositions_of_circle (h : k.periodic = true) (b : Nat) :
    (k.runCode b).activePositions.Perm (k.runPositions b) := by
  rw [List.perm_ext_iff_of_nodup]
  . intro p
    rw [Code.mem_activePositions]
    rw [k.mem_runPositions_of_circle h]
  . apply Code.nodup_activePositions
  . exact k.nodup_runPositions_of_circle h b

theorem activePositions_runCode_of_line (h : k.periodic = false) {b : Nat}
    (hb : b + k.width ≤ k.size) : (k.runCode b).activePositions = k.runPositions b := by
  have hsorted : (k.runPositions b).Pairwise (· < ·) := by
    rw [k.runPositions_of_line h]
    exact List.pairwise_lt_range'
  have hperm : (k.runCode b).activePositions.Perm (k.runPositions b) := by
    rw [List.perm_ext_iff_of_nodup]
    . intro p
      rw [Code.mem_activePositions]
      rw [k.isActive_runCode_of_line h]
      rw [k.runPositions_of_line h]
      rw [List.mem_range'_1]
      omega
    . apply Code.nodup_activePositions
    . exact hsorted.imp Nat.ne_of_lt
  refine List.Perm.eq_of_pairwise ?_ (Code.pairwise_lt_activePositions _) hsorted hperm
  intro p q _ _ hpq hqp
  omega

theorem start_bounds {v : α} {s : Int} (h : k.start? v = some s) : -2 ^ 63 ≤ s ∧ s < 2 ^ 63 := by
  unfold ScalarConfig.start? at h
  split at h
  . cases h
    exact ⟨Word.le_wrap _, Word.wrap_lt _⟩
  . contradiction

theorem width_lt_word : k.width < 2 ^ 63 :=
  lt_trans k.width_lt_size k.fits.1

theorem runLength_of_lt {s : Int} (hlow : -2 ^ 63 ≤ s) (hhigh : s + k.width < 2 ^ 63) :
    k.runLength s = k.width := by
  unfold ScalarConfig.runLength
  rw [Word.wrap_of_lt (by omega) hhigh]
  omega

theorem runLength_of_le {s : Int} (hlow : 2 ^ 63 ≤ s + k.width) (hhigh : s < 2 ^ 63) :
    k.runLength s = 0 := by
  have hwidth := k.width_lt_word
  unfold ScalarConfig.runLength
  rw [Word.wrap_of_le hlow (by omega)]
  omega

theorem runLength_le {v : α} {s : Int} (hs : k.start? v = some s) : k.runLength s ≤ k.width := by
  obtain ⟨hlow, hhigh⟩ := k.start_bounds hs
  by_cases hend : s + k.width < 2 ^ 63
  . rw [k.runLength_of_lt hlow hend]
  . rw [k.runLength_of_le (by omega) hhigh]
    exact Nat.zero_le _

theorem inRun_zero (s : Int) (p : Nat) : inRun k.periodic k.size s 0 p = false := by
  simp only [inRun, Nat.cast_zero, Bool.and_eq_false_iff, decide_eq_false_iff_not]
  omega

/-- Whether the run of a value ends beyond all words. -/
def Overflows (v : α) : Prop :=
  ∃ s, k.start? v = some s ∧ 2 ^ 63 ≤ s + k.width

/-- Whether a codec has room for the run of a value: among the words, and along its line. -/
def RunFits (v : α) : Prop :=
  if k.periodic then ¬k.Overflows v else ∃ b, k.bucket? v = some b ∧ b + k.width ≤ k.size

theorem runFits_of_circle (h : k.periodic = true) (v : α) : k.RunFits v ↔ ¬k.Overflows v := by
  simp [RunFits, h]

theorem runFits_of_line (h : k.periodic = false) {v : α} {b : Nat} (hb : k.bucket? v = some b) :
    k.RunFits v ↔ b + k.width ≤ k.size := by
  simp [RunFits, h, hb]

theorem lt_of_not_overflows {v : α} (h : ¬k.Overflows v) {s : Int} (hs : k.start? v = some s) :
    s + k.width < 2 ^ 63 := by
  by_contra hle
  exact h ⟨s, hs, by omega⟩

theorem exists_start? {v : α} (hv : Arith.isFinite v = true) : ∃ s, k.start? v = some s := by
  simp [ScalarConfig.start?, hv]

theorem exists_bucket? {v : α} (hv : Arith.isFinite v = true) : ∃ b, k.bucket? v = some b := by
  obtain ⟨s, hs⟩ := k.exists_start? hv
  simp [bucket?, hs]

theorem isFinite_of_bucket? {v : α} {b : Nat} (hb : k.bucket? v = some b) :
    Arith.isFinite v = true := by
  by_contra hv
  simp [bucket?, ScalarConfig.start?, hv] at hb

theorem encode_of_overflows {v : α} (h : k.Overflows v) : k.encode v = .zeros k.size := by
  obtain ⟨s, hs, hle⟩ := h
  have hzero : k.runLength s = 0 := k.runLength_of_le hle (k.start_bounds hs).2
  unfold encode
  rw [hs]
  simp only [hzero]
  unfold Code.ofFn Code.zeros
  congr 1
  rw [List.eq_replicate_iff]
  constructor
  . simp
  . intro byte hbyte
    obtain ⟨p, -, rfl⟩ := List.mem_map.mp hbyte
    rw [k.inRun_zero]
    rfl

theorem encode_of_start {v : α} {s : Int} (hs : k.start? v = some s)
    (hend : s + k.width < 2 ^ 63) :
    k.encode v = .ofFn k.size (inRun k.periodic k.size s k.width) := by
  unfold encode
  rw [hs]
  rw [← k.runLength_of_lt (k.start_bounds hs).1 hend]

theorem encode_of_circle (h : k.periodic = true) {v : α} (hv : Arith.isFinite v = true)
    (hend : ¬k.Overflows v) :
    ∃ b, k.bucket? v = some b ∧ b < k.size ∧ k.encode v = k.runCode b := by
  obtain ⟨s, hs⟩ := k.exists_start? hv
  have hlow := (k.start_bounds hs).1
  have hhigh := k.lt_of_not_overflows hend hs
  have hwidth := k.width_eq
  refine ⟨k.place (s + k.halfwidth), ?_, ?_, ?_⟩
  . unfold bucket? place
    rw [hs]
    rw [if_pos h]
    simp only [h, ↓reduceIte, Option.map_some]
    rw [Word.wrap_of_lt (by omega) (by omega)]
  . exact k.place_lt_size h _
  . -- only the place of the start counts, so the arithmetic does not have to be exact
    have hmod : s % (k.size : Int) = k.startOf (k.place (s + k.halfwidth)) % (k.size : Int) := by
      rw [k.startOf_of_circle h]
      rw [k.place_of_circle h]
      rw [Int.emod_sub_emod]
      rw [add_sub_cancel_right]
    rw [k.encode_of_start hs hhigh]
    unfold runCode
    rw [h]
    rw [inRun_congr hmod]

theorem encode_of_line (h : k.periodic = false) {v : α} {b : Nat} (hb : k.bucket? v = some b)
    (hlast : b + k.width ≤ k.size) : k.encode v = k.runCode b := by
  have hfits := k.fits.1
  obtain ⟨s, hs, hbucket⟩ := Option.map_eq_some_iff.mp hb
  have hbounds := k.start_bounds hs
  rw [if_neg (by simp [h])] at hbucket
  unfold Word.unsigned at hbucket
  have hstart : s = b := by omega
  rw [k.encode_of_start hs (by omega)]
  unfold runCode
  rw [k.startOf_of_line h]
  rw [hstart]

theorem activeCount_encode_lt_of_line (h : k.periodic = false) {v : α} {b : Nat}
    (hb : k.bucket? v = some b) (hlast : k.size < b + k.width) :
    (k.encode v).activeCount < k.width := by
  obtain ⟨s, hs, hbucket⟩ := Option.map_eq_some_iff.mp hb
  have hbounds := k.start_bounds hs
  have hpos := k.width_pos
  rw [if_neg (by simp [h])] at hbucket
  unfold Word.unsigned at hbucket
  by_cases hend : s + k.width < 2 ^ 63
  . have hsubset : (k.encode v).activePositions
        ⊆ List.range' (max s 0).toNat (min (s + k.width) k.size - max s 0).toNat := by
      intro p hp
      rw [Code.mem_activePositions] at hp
      rw [k.encode_of_start hs hend] at hp
      rw [h] at hp
      simp only [Code.isActive_ofFn, Bool.and_eq_true, decide_eq_true_eq] at hp
      rw [inRun_line] at hp
      rw [List.mem_range'_1]
      omega
    have hlength := (List.subperm_of_subset (Code.nodup_activePositions _) hsubset).length_le
    rw [Code.length_activePositions] at hlength
    rw [List.length_range'] at hlength
    omega
  . rw [k.encode_of_overflows ⟨s, hs, by omega⟩]
    rw [Code.activeCount_zeros]
    exact hpos

end

section

variable (k : ScalarCodec Rat)

theorem startOf_bounds (v : Rat) : -2 ^ 62 ≤ k.startOf (k.bucketOf v) ∧
    k.startOf (k.bucketOf v) + k.width < 2 ^ 63 := by
  have hfits := k.fits
  have hwidth := k.width_eq
  have hroom := k.width_lt_size
  cases h : k.periodic with
  | false =>
    have hlast := k.bucketOf_add_width_le h v
    rw [k.startOf_of_line h]
    unfold ScalarConfig.Fits at hfits
    omega
  | true =>
    -- half a run more than all positions of a circle are words too, as there is a bucket for each
    have hlast := k.bucketOf_lt_size h v
    have hcount := k.bucketCount_of_circle h
    rw [k.startOf_of_circle h]
    unfold ScalarConfig.Fits at hfits
    omega

theorem start?_exact (v : Rat) : k.start? v = some (k.startOf (k.bucketOf v)) := by
  have hbounds := k.startOf_bounds v
  have hstart : k.startOf (k.bucketOf v) = k.bucketOf v + k.padding - k.halfwidth := by
    cases h : k.periodic with
    | false =>
      rw [k.startOf_of_line h]
      rw [k.padding_of_line h]
      omega
    | true =>
      rw [k.startOf_of_circle h]
      rw [k.padding_of_circle h]
      omega
  simp only [ScalarConfig.start?, Arith.isFinite_exact, ↓reduceIte, Option.some.injEq]
  rw [center_bound]
  rw [← hstart]
  exact Word.wrap_of_lt (by omega) (by omega)

theorem not_overflows_exact (v : Rat) : ¬k.Overflows v := by
  rintro ⟨s, hs, hle⟩
  rw [start?_exact] at hs
  cases hs
  have hbounds := k.startOf_bounds v
  omega

theorem bucket?_exact (v : Rat) : k.bucket? v = some (k.bucketOf v) := by
  have hbounds := k.startOf_bounds v
  simp only [bucket?, start?_exact, Option.map_some, Option.some.injEq]
  cases h : k.periodic with
  | false =>
    rw [k.startOf_of_line h] at hbounds ⊢
    simp only [Bool.false_eq_true, ↓reduceIte]
    rw [Word.unsigned_of_nonneg (by omega) (by omega)]
    simp
  | true =>
    have hwidth := k.width_eq
    have hlast := k.bucketOf_lt_size h v
    rw [k.startOf_of_circle h] at hbounds ⊢
    simp only [↓reduceIte, sub_add_cancel]
    rw [Word.wrap_of_lt (by omega) (by omega)]
    rw [Int.emod_eq_of_lt (by omega) (by omega)]
    simp

theorem encode_exact (v : Rat) : k.encode v = k.runCode (k.bucketOf v) :=
  k.encode_of_start (k.start?_exact v) (k.startOf_bounds v).2

end

section

variable {α : Type} [Arith α] (k : ScalarCodec α)

/-- A code of zeros and ones for a codec whose active positions are a whole run of given ones. -/
structure HasRun (code : Code) (positions : List Nat) : Prop where
  size : code.size = k.size
  isBinary : code.IsBinary
  activeCount : code.activeCount = k.width
  nodup : positions.Nodup
  inside : ∀ p ∈ positions, p < k.size
  perm : code.activePositions.Perm positions

theorem hasRun_runCode {b : Nat} (hnodup : (k.runPositions b).Nodup)
    (hperm : (k.runCode b).activePositions.Perm (k.runPositions b)) :
    k.HasRun (k.runCode b) (k.runPositions b) where
  size := k.size_runCode b
  isBinary := k.isBinary_runCode b
  activeCount := by
    rw [← Code.length_activePositions]
    rw [hperm.length_eq]
    rw [length_runPositions]
  nodup := hnodup
  inside := by
    intro p hp
    rw [← hperm.mem_iff] at hp
    rw [Code.mem_activePositions] at hp
    simpa using Code.lt_size_of_isActive hp
  perm := hperm

theorem hasRun_of_circle (h : k.periodic = true) (b : Nat) :
    k.HasRun (k.runCode b) (k.runPositions b) := by
  apply hasRun_runCode
  . exact k.nodup_runPositions_of_circle h b
  . exact k.perm_runPositions_of_circle h b

theorem hasRun_of_line (h : k.periodic = false) {b : Nat} (hb : b + k.width ≤ k.size) :
    k.HasRun (k.runCode b) (k.runPositions b) := by
  apply hasRun_runCode
  . rw [k.runPositions_of_line h]
    exact List.nodup_range'
  . rw [k.activePositions_runCode_of_line h hb]

theorem activeCount_encode_lt {v : α} (hv : Arith.isFinite v = true) (h : ¬k.RunFits v) :
    (k.encode v).activeCount < k.width := by
  cases hc : k.periodic with
  | false =>
    obtain ⟨b, hb⟩ := k.exists_bucket? hv
    rw [k.runFits_of_line hc hb] at h
    exact k.activeCount_encode_lt_of_line hc hb (not_le.mp h)
  | true =>
    rw [k.runFits_of_circle hc, not_not] at h
    rw [k.encode_of_overflows h]
    rw [Code.activeCount_zeros]
    exact k.width_pos

theorem exists_hasRun_encode {v : α} (hv : Arith.isFinite v = true) (h : k.RunFits v) :
    ∃ b, k.bucket? v = some b ∧ k.HasRun (k.encode v) (k.runPositions b) := by
  cases hc : k.periodic with
  | false =>
    obtain ⟨b, hb⟩ := k.exists_bucket? hv
    rw [k.runFits_of_line hc hb] at h
    refine ⟨b, hb, ?_⟩
    rw [k.encode_of_line hc hb h]
    exact k.hasRun_of_line hc h
  | true =>
    rw [k.runFits_of_circle hc] at h
    obtain ⟨b, hb, -, hcode⟩ := k.encode_of_circle hc hv h
    refine ⟨b, hb, ?_⟩
    rw [hcode]
    exact k.hasRun_of_circle hc b

theorem runFits_exact (k : ScalarCodec Rat) (v : Rat) : k.RunFits v := by
  cases hc : k.periodic with
  | false =>
    rw [k.runFits_of_line hc (k.bucket?_exact v)]
    exact k.bucketOf_add_width_le hc v
  | true =>
    rw [k.runFits_of_circle hc]
    exact k.not_overflows_exact v

end

/--
The encoding of a value has as many active positions as the codec has just if there is room for its
run, and then they are this run: the positions around the bucket of the value on a circle, those
from its bucket on along a line. There is room for every run if the arithmetic is exact. Rounding
can lead a run beyond all words, so that nothing of it is left, or beyond the end of a line.
-/
theorem hasRun_encode {α : Type} [Arith α] (k : ScalarCodec α) {v : α}
    (hv : Arith.isFinite v = true) :
    (k.encode v).size = k.size ∧ (k.encode v).IsBinary ∧
    ((k.encode v).activeCount = k.width ↔ k.RunFits v) ∧
    (k.RunFits v → ∃ b, k.bucket? v = some b ∧
      (k.periodic = true → k.HasRun (k.encode v) ((List.range k.width).map fun (i : Nat) =>
        (((b : Int) - k.halfwidth + i) % (k.size : Int)).toNat)) ∧
      (k.periodic = false → k.HasRun (k.encode v) (List.range' b k.width))) ∧
    ∀ (l : ScalarCodec Rat) (u : Rat), l.RunFits u := by
  refine ⟨k.size_encode v, k.isBinary_encode v, ?_, ?_, runFits_exact⟩
  . constructor
    . intro hcount
      by_contra hfits
      have hless := k.activeCount_encode_lt hv hfits
      omega
    . intro hfits
      obtain ⟨b, -, hrun⟩ := k.exists_hasRun_encode hv hfits
      exact hrun.activeCount
  . intro hfits
    obtain ⟨b, hb, hrun⟩ := k.exists_hasRun_encode hv hfits
    refine ⟨b, hb, ?_, ?_⟩
    . intro hc
      simp only [runPositions, place, hc, ↓reduceIte, k.startOf_of_circle hc] at hrun
      exact hrun
    . intro hc
      rw [k.runPositions_of_line hc] at hrun
      exact hrun

def hours : ScalarCodec Rat where
  width := 5
  low := 0
  high := 24
  radius := 4
  periodic := true
  width_odd := by decide
  low_lt_high := by decide +kernel
  low_finite := rfl
  high_finite := rfl
  radius_pos := by decide +kernel
  radius_finite := rfl
  width_lt_size := by decide +kernel
  fits := by decide +kernel

def shares : ScalarCodec Rat where
  width := 5
  low := 0
  high := 1
  radius := 1
  width_odd := by decide
  low_lt_high := by decide +kernel
  low_finite := rfl
  high_finite := rfl
  radius_pos := by decide +kernel
  radius_finite := rfl
  width_lt_size := by decide +kernel
  fits := by decide +kernel

def tight : ScalarCodec Rat where
  width := 5
  low := 0
  high := 6
  radius := 5
  periodic := true
  width_odd := by decide
  low_lt_high := by decide +kernel
  low_finite := rfl
  high_finite := rfl
  radius_pos := by decide +kernel
  radius_finite := rfl
  width_lt_size := by decide +kernel
  fits := by decide +kernel

/-- A line that is as long as ten of the smallest numbers that there are. -/
def grains : ScalarCodec Float where
  width := 3
  low := 0
  high := .ofBits 10
  radius := .ofBits 4
  width_odd := by decide
  low_lt_high := by decide +kernel
  low_finite := by decide +kernel
  high_finite := by decide +kernel
  radius_pos := by decide +kernel
  radius_finite := by decide +kernel
  width_lt_size := by decide +kernel
  fits := by decide +kernel

/-- A circle that is so long that six times its values can be infinite. -/
def vast : ScalarCodec Float where
  width := 3
  low := 0
  high := 3.05e307
  radius := 1.8e307
  periodic := true
  width_odd := by decide
  low_lt_high := by decide +kernel
  low_finite := by decide +kernel
  high_finite := by decide +kernel
  radius_pos := by decide +kernel
  radius_finite := by decide +kernel
  width_lt_size := by decide +kernel
  fits := by decide +kernel

theorem hasRun_encode_hours_shares_vast :
    (hours.periodic = true ∧ Arith.isFinite (239 / 10 : Rat) = true ∧
      hours.bucket? (239 / 10) = some 29 ∧
      hours.HasRun (hours.encode (239 / 10)) [27, 28, 29, 0, 1]) ∧
    (shares.periodic = false ∧ Arith.isFinite (7 : Rat) = true ∧ shares.bucket? 7 = some 5 ∧
      shares.HasRun (shares.encode 7) [5, 6, 7, 8, 9]) ∧
    (Arith.isFinite grains.high = true ∧ (grains.encode grains.high).activeCount ≠ 3) ∧
    (Arith.isFinite (3e307 : Float) = true ∧ (vast.encode 3e307).activeCount ≠ 3) := by
  have hhours : hours.bucket? (239 / 10) = some 29 := by decide +kernel
  have hshares : shares.bucket? 7 = some 5 := by decide +kernel
  have hgrains : grains.bucket? grains.high = some 10 := by decide +kernel
  have hshort : ¬10 + grains.width ≤ grains.size := by decide +kernel
  have hvast : vast.Overflows 3e307 := ⟨2 ^ 63 - 2, by decide +kernel, by decide⟩
  have hfinite : Arith.isFinite (3e307 : Float) = true := by decide +kernel
  have hcircle := hasRun_encode hours (v := 239 / 10) rfl
  have hline := hasRun_encode shares (v := 7) rfl
  obtain ⟨b, hb, hrun, -⟩ := hcircle.2.2.2.1 (hcircle.2.2.2.2 _ _)
  obtain ⟨i, hi, -, hrow⟩ := hline.2.2.2.1 (hline.2.2.2.2 _ _)
  rw [hhours] at hb
  rw [hshares] at hi
  cases hb
  cases hi
  have hturn : (List.range hours.width).map (fun (i : Nat) =>
      (((29 : Nat) : Int) - hours.halfwidth + i) % (hours.size : Int) |>.toNat)
        = [27, 28, 29, 0, 1] := by decide +kernel
  have hrun := hrun rfl
  rw [hturn] at hrun
  refine ⟨⟨rfl, rfl, hhours, hrun⟩, ⟨rfl, rfl, hshares, hrow rfl⟩, ⟨grains.high_finite, ?_⟩,
    hfinite, ?_⟩
  . intro hcount
    have hfits := (hasRun_encode grains grains.high_finite).2.2.1.mp hcount
    rw [grains.runFits_of_line rfl hgrains] at hfits
    exact hshort hfits
  . intro hcount
    have hfits := (hasRun_encode vast hfinite).2.2.1.mp hcount
    rw [vast.runFits_of_circle rfl] at hfits
    exact hfits hvast

/-- Two codecs that lose active positions of finite values, the one some and the other one all. -/
theorem activeCount_encode_grains_vast :
    (build grains.toScalarConfig = .ok grains ∧ Arith.isFinite grains.high = true ∧
      grains.width = 3 ∧ (grains.encode grains.high).activeCount = 1) ∧
    (build vast.toScalarConfig = .ok vast ∧ Arith.isFinite (3e307 : Float) = true ∧
      vast.width = 3 ∧ vast.bucket? 3e307 = some 1 ∧ (vast.encode 3e307).activeCount = 0) := by
  refine ⟨⟨build_toScalarConfig grains, ?_, rfl, ?_⟩, build_toScalarConfig vast, ?_, rfl, ?_, ?_⟩
  all_goals decide +kernel

end ScalarCodec

end CalendarCode
