import CalendarCode.Proofs.MomentCodec.Independence

/-!
This module contains what pictures keep of codes. The pictures of the parts that belong to the
fields make up the picture of the whole code, so that the active positions can be read back from it,
and all that a codec says about a code comes from its active positions.
-/

namespace CalendarCode.MomentCodec

section

variable {α : Type} [Arith α] {k : MomentCodec α} {a b code : Code}

theorem concat_parts (hk : k.IsBuilt) (hcode : code.size = k.size) :
    .concat (k.fields.map fun f => slice f code) = code := by
  unfold slice fields
  rw [concat_slices hk.isTight.contiguous]
  rw [← hk.isTight.size_eq]
  exact Code.slice_all hcode

theorem withoutSpaces_drawing (hk : k.IsBuilt) (hcode : code.size = k.size) :
    Code.withoutSpaces (k.drawing code) = String.ofList code.picture := by
  have hparts : (k.fields.map fun f => (slice f code).picture)
      = (k.fields.map fun f => slice f code).map Code.picture := by
    rw [List.map_map]
    rfl
  unfold drawing
  rw [Code.withoutSpaces_intercalate (k.blank_not_mem_parts code)]
  rw [hparts]
  rw [← Code.picture_concat]
  rw [concat_parts hk hcode]

theorem ofPicture_drawing (hk : k.IsBuilt) (hcode : code.size = k.size) :
    .ofPicture (k.drawing code) = Code.ofBytes code.bytes :=
  Code.ofPicture_eq (withoutSpaces_drawing hk hcode)

theorem lengths_drawing (hk : k.IsBuilt) (hcode : code.size = k.size) (hne : k.fields ≠ []) :
    (Code.groups (k.drawing code)).map List.length = k.fields.map fun f => f.codec.size := by
  rw [groups_drawing hne]
  rw [List.map_map]
  apply List.map_congr_left
  intro f hf
  rw [Function.comp_apply]
  rw [Code.length_picture]
  exact size_slice hk hcode hf

theorem activity_slice_congr (h : a.activity = b.activity) (f : Field α) :
    (slice f a).activity = (slice f b).activity := by
  unfold slice
  rw [Code.activity_slice]
  rw [Code.activity_slice]
  rw [h]

theorem drawing_congr (h : a.activity = b.activity) : k.drawing a = k.drawing b := by
  unfold drawing
  congr 2
  apply List.map_congr_left
  intro f _
  exact Code.picture_congr (activity_slice_congr h f)

theorem drawing_eq_iff (hk : k.IsBuilt) (ha : a.size = k.size) (hb : b.size = k.size) :
    k.drawing a = k.drawing b ↔ ∀ p, a.isActive p = b.isActive p := by
  rw [← Code.activity_eq_iff (ha.trans hb.symm)]
  constructor
  . intro h
    have hback : Code.ofBytes a.bytes = Code.ofBytes b.bytes := by
      rw [← ofPicture_drawing hk ha]
      rw [← ofPicture_drawing hk hb]
      rw [h]
    unfold Code.activity
    rw [← Code.activity_ofBytes]
    rw [← Code.activity_ofBytes]
    rw [hback]
  . exact drawing_congr

variable [Numeral α]

theorem decode_congr (hk : k.IsBuilt) (ha : a.size = k.size) (hb : b.size = k.size)
    (h : a.activity = b.activity) : k.decode a = k.decode b := by
  rw [decode_eq hk ha]
  rw [decode_eq hk hb]
  congr 2
  apply List.map_congr_left
  intro f _
  rw [f.codec.read_congr (activity_slice_congr h f)]

theorem reconstruct_congr (hk : k.IsBuilt) (ha : a.size = k.size) (hb : b.size = k.size)
    (h : a.activity = b.activity) : k.reconstruct a = k.reconstruct b := by
  rw [reconstruct_eq hk ha]
  rw [reconstruct_eq hk hb]
  congr 1
  apply List.map_congr_left
  intro f _
  rw [f.codec.bestBucket_congr (activity_slice_congr h f)]

structure Draws (k : MomentCodec α) (text : String) (code : Code) : Prop where
  empty : k.fields = [] → text = ""
  groups : k.fields ≠ [] → Code.groups text = k.fields.map fun f => (slice f code).picture
  lengths : k.fields ≠ [] →
    (Code.groups text).map List.length = k.fields.map fun f => f.codec.size
  withoutSpaces : Code.withoutSpaces text = (Code.ofBytes code.bytes).text
  ofPicture : .ofPicture text = Code.ofBytes code.bytes
  decode : ∃ d, k.decode code = .ok d ∧ k.decode (.ofPicture text) = .ok d
  reconstruct : ∃ buckets, k.reconstruct code = .ok buckets ∧
    k.reconstruct (.ofPicture text) = .ok buckets

theorem draws_drawing (hk : k.IsBuilt) (hcode : code.size = k.size) :
    k.Draws (k.drawing code) code := by
  have hback : (Code.ofPicture (k.drawing code)).activity = code.activity := by
    rw [ofPicture_drawing hk hcode]
    exact Code.activity_ofBytes code.bytes
  have hsize : (Code.ofPicture (k.drawing code)).size = k.size := by
    rw [← Code.length_activity]
    rw [hback]
    rw [Code.length_activity]
    exact hcode
  constructor
  . intro hnil
    unfold drawing
    rw [hnil]
    rfl
  . intro hne
    exact groups_drawing hne code
  . exact lengths_drawing hk hcode
  . rw [withoutSpaces_drawing hk hcode]
    exact code.ofList_picture
  . exact ofPicture_drawing hk hcode
  . refine ⟨_, decode_eq hk hcode, ?_⟩
    rw [decode_congr hk hsize hcode hback]
    exact decode_eq hk hcode
  . refine ⟨_, reconstruct_eq hk hcode, ?_⟩
    rw [reconstruct_congr hk hsize hcode hback]
    exact reconstruct_eq hk hcode

end

/--
A picture is faithful. It draws every code of the right size, with one group for each field, and two
codes have the same picture just if the same positions are active in both.
-/
theorem picture_draws {α : Type} [Arith α] [Numeral α] {c : Config α} {k : MomentCodec α}
    (h : build c = .ok k) :
    (∀ code : Code, code.size = k.size →
      ∃ text, k.picture code = .ok text ∧ k.Draws text code) ∧
    ∀ a b : Code, a.size = k.size → b.size = k.size →
      (k.picture a = k.picture b ↔ ∀ p, a.isActive p = b.isActive p) := by
  have hk := isBuilt_of_build h
  constructor
  . intro code hcode
    exact ⟨_, k.picture_eq hcode, draws_drawing hk hcode⟩
  . intro a b ha hb
    rw [k.picture_eq ha]
    rw [k.picture_eq hb]
    rw [Except.ok.injEq]
    exact drawing_eq_iff hk ha hb

theorem picture_draws_uneven : ∃ k, build uneven = .ok k ∧ k.fields.length = 4 ∧
    crowded.size = k.size ∧ (∃ text, k.picture crowded = .ok text ∧ k.Draws text crowded) ∧
    k.picture crowded = k.picture (.ofBytes crowded.bytes) ∧
    k.picture crowded ≠ k.picture (.zeros 80) := by
  obtain ⟨k, hk, hsizes⟩ := exists_eq_ok_of_toOption (x := build uneven)
    (f := fun k => (k.fields.length, k.size)) (b := (4, 80)) (by decide +kernel)
  obtain ⟨hfour, hsize⟩ := Prod.mk.inj hsizes
  obtain ⟨hdraws, hsame⟩ := picture_draws hk
  have hcode : crowded.size = k.size := hsize.symm
  have hbytes : (Code.ofBytes crowded.bytes).size = k.size := hsize.symm
  have hzeros : (Code.zeros 80).size = k.size := hsize.symm
  refine ⟨k, hk, hfour, hcode, hdraws crowded hcode, ?_, ?_⟩
  . rw [hsame _ _ hcode hbytes]
    rw [← Code.activity_eq_iff (hcode.trans hbytes.symm)]
    exact (Code.activity_ofBytes crowded.bytes).symm
  . intro h
    have hfirst := (hsame _ _ hcode hzeros).mp h 0
    contradiction

end CalendarCode.MomentCodec
