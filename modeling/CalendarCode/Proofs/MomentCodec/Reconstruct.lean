import CalendarCode.MomentCodec.Decode
import CalendarCode.Proofs.Calendar
import CalendarCode.Proofs.MomentCodec.Encode
import CalendarCode.Proofs.Scalar.Reconstruct

/-!
This module contains the way back from the code of a moment to the buckets of its fields. The number
that a field encodes lies in its domain, so nothing is clamped or turned on the way, and the part of
the code that belongs to a field matches the bucket of this number best.
-/

namespace CalendarCode.MomentCodec

theorem reconstruct_eq {α : Type} [Arith α] [Numeral α] {k : MomentCodec α} (hk : k.IsBuilt)
    {code : Code} (hcode : code.size = k.size) : k.reconstruct code
      = .ok (k.fields.map fun f => f.codec.bucket (f.codec.bestBucket (slice f code))) := by
  unfold reconstruct sized
  rw [if_pos hcode]
  apply mapM_eq_ok_map
  intro f hf
  exact f.codec.reconstruct_eq (size_slice hk hcode hf)

variable {k : MomentCodec Rat}

theorem bound_scalar (hk : k.IsBuilt) (m : Moment) {f : Field Rat} (hf : f ∈ k.fields) :
    f.codec.bound (k.scalar m f) = k.scalar m f := by
  have hdomain := hk.hasDomain f hf
  obtain ⟨hlow, hhigh, hcircle⟩ := f.aspect.value_bounds (k.days.getD .empty) m
  apply ScalarCodec.bound_of_mem
  . rw [hdomain.low]
    exact hlow
  . rw [hdomain.high]
    exact hhigh
  . rw [hdomain.periodic]
    rw [hdomain.high]
    exact hcircle

def fieldBucket (k : MomentCodec Rat) (m : Moment) (f : Field Rat) : Bucket Rat :=
  ⟨f.codec.bucketValue (f.codec.bucketOf (k.scalar m f)), f.codec.encode (k.scalar m f)⟩

theorem buckets_some (k : MomentCodec Rat) (m : Moment) : k.buckets (some m)
    = k.fields.map fun f => some (f.codec.bucketOf (k.scalar m f)) := by
  simp only [buckets, scalars, Option.map_some]
  rw [List.zipWith_map_right]
  rw [List.zipWith_self]
  simp only [ScalarCodec.bucket?_exact]

theorem bucketsAt_buckets (k : MomentCodec Rat) (m : Moment) :
    k.bucketsAt (k.buckets (some m)) = .ok (k.fields.map (k.fieldBucket m)) := by
  have hzip : k.fields.zip (k.buckets (some m))
      = k.fields.map fun f => (f, some (f.codec.bucketOf (k.scalar m f))) := by
    rw [buckets_some]
    rw [← List.zip_map']
    rw [List.map_id']
  have hlength : (k.buckets (some m)).length = k.layout.count := by
    rw [buckets_some]
    rw [List.length_map]
    rfl
  unfold bucketsAt
  rw [if_pos hlength]
  rw [hzip]
  rw [List.mapM_map]
  apply mapM_eq_ok_map
  intro f _
  exact f.codec.bucketAt_bucketOf _

theorem reconstruct_encode_eq (hk : k.IsBuilt) (m : Moment) :
    k.reconstruct (k.encode (some m)) = .ok (k.fields.map (k.fieldBucket m)) := by
  unfold reconstruct sized
  rw [if_pos (size_encode hk (some m))]
  apply mapM_eq_ok_map
  intro f hf
  rw [slice_encode hk m hf]
  rw [ScalarCodec.reconstruct_encode]
  exact f.codec.bucketAt_bucketOf _

theorem encode_eq_concat (k : MomentCodec Rat) (m : Moment) :
    k.encode (some m) = .concat ((k.fields.map (k.fieldBucket m)).map Bucket.code) := by
  rw [List.map_map]
  rfl

theorem abs_value_fieldBucket_sub_lt (hk : k.IsBuilt) (m : Moment) {f : Field Rat}
    (hf : f ∈ k.fields) : |(k.fieldBucket m f).value - k.scalar m f| < f.codec.resolution := by
  have hnear := f.codec.abs_bucketValue_sub_bound_lt (k.scalar m f)
  rw [bound_scalar hk m hf] at hnear
  exact hnear

/-- Whether buckets and numbers are those of a moment, and its code gives the buckets back. -/
structure IsRoundTrip (k : MomentCodec Rat) (m : Moment) (buckets : List (Bucket Rat))
    (values : List Rat) : Prop where
  bucketsAt : k.bucketsAt (k.buckets (some m)) = .ok buckets
  length : buckets.length = k.fields.length
  encode : .concat (buckets.map Bucket.code) = k.encode (some m)
  scalars : k.scalars (some m) = some values
  near : ∀ (i : Nat) (f : Field Rat) (b : Bucket Rat) (x : Rat), k.fields[i]? = some f →
    buckets[i]? = some b → values[i]? = some x → |b.value - x| < f.codec.resolution
  reconstruct : k.reconstruct (k.encode (some m)) = .ok buckets

/--
The buckets of a moment make up its code, are less than a resolution away from the numbers that the
fields encode, and are what the code is matched with.
-/
theorem exists_isRoundTrip {c : Config Rat} {k : MomentCodec Rat} (h : build c = .ok k)
    (m : Moment) : ∃ buckets values, k.IsRoundTrip m buckets values := by
  have hk := isBuilt_of_build h
  refine ⟨k.fields.map (k.fieldBucket m), k.fields.map (k.scalar m), ?_⟩
  constructor
  . exact k.bucketsAt_buckets m
  . rw [List.length_map]
  . exact (k.encode_eq_concat m).symm
  . rfl
  . intro i f b x hf hb hx
    rw [List.getElem?_map] at hb hx
    rw [hf] at hb hx
    cases hb
    cases hx
    exact abs_value_fieldBucket_sub_lt hk m (List.mem_of_getElem? hf)
  . exact reconstruct_encode_eq hk m

def uneven : Config Rat where
  season := .withRadius 5 (314 / 3)
  customDays := .enabled 3 (.many ["sat", "Monday "])
  holiday := .width 3
  timeOfDay := .withRadius 7 (17 / 5)

def leapSecond : Moment :=
  ⟨⟨2016, 12, 26, by decide, by decide, by decide, by decide⟩,
    ⟨23, 59, 59, 1500000000, by decide, by decide, by decide, by decide⟩⟩

theorem exists_isRoundTrip_uneven : ∃ k, build uneven = .ok k ∧ k.fields.length = 4 ∧
    ∃ buckets values, k.IsRoundTrip leapSecond buckets values := by
  have hfour : ((build uneven).toOption.map fun k => k.fields.length) = some 4 := by
    decide +kernel
  cases hbuild : build uneven with
  | error fault =>
    rw [hbuild] at hfour
    contradiction
  | ok k =>
    rw [hbuild] at hfour
    simp only [Except.toOption, Option.map_some, Option.some.injEq] at hfour
    exact ⟨k, rfl, hfour, exists_isRoundTrip hbuild leapSecond⟩

end CalendarCode.MomentCodec
