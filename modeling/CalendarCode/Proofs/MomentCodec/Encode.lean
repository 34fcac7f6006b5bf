import CalendarCode.MomentCodec.Decode
import CalendarCode.MomentCodec.Encode
import CalendarCode.Proofs.MomentCodec.Build

/-!
This module contains the codes that codecs of moments write and read. The part of a code that
belongs to a field is the encoding of the number of this field, and what it stands for is found in
this part alone.
-/

namespace CalendarCode.MomentCodec

variable {α : Type} [Arith α] {k : MomentCodec α}

theorem stop_le_size (hk : k.IsBuilt) {f : Field α} (hf : f ∈ k.fields) : f.stop ≤ k.size :=
  Layout.stop_le_size hk.isTight hf

theorem size_slice (hk : k.IsBuilt) {code : Code} (hcode : code.size = k.size) {f : Field α}
    (hf : f ∈ k.fields) : (slice f code).size = f.codec.size := by
  apply Code.size_slice
  rw [hcode]
  exact stop_le_size hk hf

theorem slice_encode (hk : k.IsBuilt) (m : Moment) {f : Field α} (hf : f ∈ k.fields) :
    slice f (k.encode (some m)) = f.codec.encode (k.scalar m f) :=
  slice_concat hk.isTight.contiguous (fun f _ => f.codec.size_encode _) hf

theorem slice_zeros (hk : k.IsBuilt) {f : Field α} (hf : f ∈ k.fields) :
    slice f (.zeros k.size) = .zeros f.size := by
  have hstop := stop_le_size hk hf
  unfold Field.stop at hstop
  ext1
  simp only [slice, Code.slice, Code.zeros, List.drop_replicate, List.take_replicate]
  congr 1
  omega

theorem size_encode (hk : k.IsBuilt) (input : Input) : (k.encode input).size = k.size := by
  cases input with
  | none => exact Code.size_zeros k.size
  | some m =>
    unfold size
    rw [hk.isTight.size_eq]
    exact size_concat fun f _ => f.codec.size_encode _

theorem decode_eq [Numeral α] (hk : k.IsBuilt) {code : Code} (hcode : code.size = k.size) :
    k.decode code = .ok ⟨k.fields.map fun f =>
      (qualify k.name f.codec.displayName, f.codec.read (slice f code))⟩ := by
  have hfields : k.fields.mapM (k.decodeField code) = .ok (k.fields.map fun f =>
      (qualify k.name f.codec.displayName, f.codec.read (slice f code))) := by
    apply mapM_eq_ok_map
    intro f hf
    unfold decodeField ScalarCodec.decode
    rw [if_pos (size_slice hk hcode hf)]
    rfl
  unfold decode sized
  rw [if_pos hcode]
  rw [hfields]
  rfl

end CalendarCode.MomentCodec
