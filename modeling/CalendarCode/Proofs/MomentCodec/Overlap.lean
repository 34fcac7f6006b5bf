import CalendarCode.Proofs.MomentCodec.Reconstruct
import CalendarCode.Proofs.Scalar.Overlap

/-!
This module contains the overlap of the codes of two moments: what the codes of the fields overlap,
taken together. For each field this depends on the distance of the two buckets only. The code of
missing data overlaps no other one.
-/

namespace CalendarCode.MomentCodec

section

variable {α : Type} [Arith α] (k : MomentCodec α)

theorem overlap_encode_some (m n : Moment) :
    (k.encode (some m)).overlap (k.encode (some n)) = (k.fields.map fun f =>
      (f.codec.encode (k.scalar m f)).overlap (f.codec.encode (k.scalar n f))).sum := by
  apply Code.overlap_concat
  intro f _
  rw [ScalarCodec.size_encode]
  rw [ScalarCodec.size_encode]

structure AddsOverlaps : Prop where
  size : ∀ input : Input, (k.encode input).size = k.size
  moments : ∀ m n : Moment, (k.encode (some m)).overlap (k.encode (some n))
    = (k.fields.map fun f =>
        (f.codec.encode (k.scalar m f)).overlap (f.codec.encode (k.scalar n f))).sum
  missing : ∀ input : Input, (k.encode none).overlap (k.encode input) = 0 ∧
    (k.encode input).overlap (k.encode none) = 0

variable {k}

theorem IsBuilt.addsOverlaps (hk : k.IsBuilt) : k.AddsOverlaps where
  size := size_encode hk
  moments := k.overlap_encode_some
  missing := by
    intro input
    have hzero : (k.encode none).overlap (k.encode input) = 0 := Code.overlap_zeros k.size _
    refine ⟨hzero, ?_⟩
    rw [Code.overlap_comm]
    exact hzero

end

theorem overlap_encode_eq_sum_shared (k : MomentCodec Rat) (m n : Moment) :
    ∃ is js : List Nat, k.buckets (some m) = is.map some ∧ k.buckets (some n) = js.map some ∧
      (k.encode (some m)).overlap (k.encode (some n))
        = ((k.fields.zip (is.zip js)).map fun (f, i, j) =>
            f.codec.shared ((i : Int) - j).natAbs).sum := by
  have hzip : k.fields.zip ((k.fields.map fun f => f.codec.bucketOf (k.scalar m f)).zip
        (k.fields.map fun f => f.codec.bucketOf (k.scalar n f)))
      = k.fields.map fun f =>
          (f, f.codec.bucketOf (k.scalar m f), f.codec.bucketOf (k.scalar n f)) := by
    rw [List.zip_map']
    rw [List.zip_eq_zipWith]
    rw [List.zipWith_map_right]
    rw [List.zipWith_self]
  refine ⟨k.fields.map fun f => f.codec.bucketOf (k.scalar m f),
    k.fields.map fun f => f.codec.bucketOf (k.scalar n f), ?_, ?_, ?_⟩
  . rw [buckets_some]
    rw [List.map_map]
    rfl
  . rw [buckets_some]
    rw [List.map_map]
    rfl
  . rw [hzip]
    rw [List.map_map]
    rw [overlap_encode_some]
    simp only [ScalarCodec.overlap_encode_exact]
    rfl

def newYear : Moment :=
  ⟨⟨2017, 1, 1, by decide, by decide, by decide, by decide⟩,
    ⟨12, 30, 15, 500000000, by decide, by decide, by decide, by decide⟩⟩

end CalendarCode.MomentCodec
