import CalendarCode.Proofs.MomentCodec.Reconstruct
import CalendarCode.Proofs.Scalar.Write

/-!
This module contains the writing of moments over codes that already exist. Nothing clears the whole
code first, but every field clears its own part, and the parts of the fields are the whole code.
-/

namespace CalendarCode.MomentCodec

open InPlace

section

variable {α : Type} [Arith α]

def write (k : MomentCodec α) (input : Input) : InPlace α Unit :=
  match input with
  | some m => k.fields.forM fun f => within f.offset f.size (f.codec.write (k.scalar m f))
  | none => modify (·.fill 0)

def writeChecked (k : MomentCodec α) (input : Input) : InPlace α Unit := do
  checkSize k.size
  k.write input

variable {k : MomentCodec α}

theorem foldl_splice_encode (hk : k.IsBuilt) (m : Moment) {code : Code} (h : code.size = k.size) :
    k.fields.foldl (fun c f => c.splice f.offset (f.codec.encode (k.scalar m f))) code
      = k.encode (some m) := by
  have hroom : 0 + sizes k.layout.fields ≤ code.size := by
    rw [Nat.zero_add]
    rw [h]
    exact Nat.le_of_eq hk.isTight.size_eq.symm
  unfold fields
  rw [foldl_splice hk.isTight.contiguous (fun f _ => f.codec.size_encode _) hroom]
  apply Code.splice_all
  rw [h]
  exact size_encode hk (some m)

theorem exec_write (hk : k.IsBuilt) (input : Input) {code : Code} (h : code.size = k.size) :
    (k.write input).exec code = (.ok (), k.encode input) := by
  cases input with
  | none =>
    unfold write encode
    rw [exec_modify]
    unfold Code.fill
    rw [h]
    rfl
  | some m =>
    rw [← foldl_splice_encode hk m h]
    -- every step finds a code of the size that the first one finds
    apply exec_forM (P := fun c => c.size = k.size)
    . intro f hf c hc
      have hstop := stop_le_size hk hf
      have hroom : f.offset + f.size ≤ c.size := by
        rw [hc]
        exact hstop
      constructor
      . apply exec_within hroom
        apply ScalarCodec.exec_write
        exact Code.size_slice c hroom
      . rw [Code.size_splice]
        . exact hc
        . rw [ScalarCodec.size_encode]
          exact hroom
    . exact h

theorem encodeInto_eq (hk : k.IsBuilt) (input : Input) {code : Code} (h : code.size = k.size) :
    k.encodeInto input code = .ok (k.encode input) := by
  unfold encodeInto sized
  rw [if_pos h]
  cases input with
  | none =>
    simp only [Code.fill, h]
    rfl
  | some m =>
    simp only
    rw [foldl_splice_encode hk m h]

theorem IsBuilt.overwrites (hk : k.IsBuilt) :
    Overwrites k.size k.encode k.encodeInto k.writeChecked where
  fits := by
    intro input code h
    refine ⟨encodeInto_eq hk input h, ?_⟩
    unfold writeChecked
    rw [exec_bind_of_ok (exec_checkSize h)]
    exact exec_write hk input h
  refuses := by
    intro input code h
    constructor
    . unfold encodeInto sized
      rw [if_neg h]
    . unfold writeChecked
      rw [exec_bind_of_error (exec_checkSize_of_ne h)]

end

def used : Code :=
  ⟨List.replicate 80 7⟩

def usedShort : Code :=
  ⟨List.replicate 3 255⟩

end CalendarCode.MomentCodec
