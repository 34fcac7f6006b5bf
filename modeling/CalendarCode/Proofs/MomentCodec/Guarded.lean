import CalendarCode.Proofs.MomentCodec.Bounds
import CalendarCode.Proofs.Scalar.Guarded

/-!
This module contains which codes a codec accepts: those of its own size, whatever bytes they hold.
Careful programs that work field by field give the same results and never have a flaw, so that no
check behind the first one ever fails.
-/

namespace CalendarCode

open Flaw

def Code.sliceGuarded (c : Code) (start stop : Nat) : Except Flaw Code :=
  if start ≤ stop ∧ stop ≤ c.size then .ok (c.slice start (stop - start)) else .error .beyond

def Code.drawGuarded {ε : Type} (c : Code) : Guarded ε String :=
  return String.ofList c.picture

theorem Code.run_drawGuarded {ε : Type} (c : Code) :
    (c.drawGuarded : Guarded ε String).run = .ok (.ok (String.ofList c.picture)) := rfl

namespace MomentCodec

section

variable {α β : Type} [Arith α] (k : MomentCodec α)

def readGuarded (read : Field α → Code → Guarded (Error α) β) (code : Code) :
    Guarded (Error α) (List β) :=
  if code.size = k.size then
    k.fields.mapM fun f => do
      let part ← code.sliceGuarded f.offset f.stop
      read f part
  else
    throw (.size k.size code.size)

def pictureGuarded (code : Code) : Guarded (Error α) String :=
  " ".intercalate <$> k.readGuarded (fun _ part => part.drawGuarded) code

/--
Whether an operation has a result just for the codes of the size of a codec, says both sizes for all
other codes, and can be done by a careful program that never has a flaw.
-/
structure Accepts (op : Code → Except (Error α) β) (careful : Code → Guarded (Error α) β) :
    Prop where
  ok_iff : ∀ code, (∃ b, op code = .ok b) ↔ code.size = k.size
  error : ∀ code, code.size ≠ k.size → op code = .error (.size k.size code.size)
  run : ∀ code, (careful code).run = .ok (op code)

variable {k}

theorem sliceGuarded_eq (hk : k.IsBuilt) {code : Code} (hcode : code.size = k.size) {f : Field α}
    (hf : f ∈ k.fields) : code.sliceGuarded f.offset f.stop = .ok (slice f code) := by
  have hstop := stop_le_size hk hf
  have hle : f.offset ≤ f.stop := Nat.le_add_right f.offset f.size
  unfold Code.sliceGuarded
  rw [hcode]
  rw [if_pos ⟨hle, hstop⟩]
  rw [show f.stop - f.offset = f.size from Nat.add_sub_cancel_left f.offset f.size]
  rfl

theorem run_readGuarded (hk : k.IsBuilt) {read : Field α → Code → Guarded (Error α) β}
    {result : Field α → Code → Except (Error α) β}
    (h : ∀ f part, (read f part).run = .ok (result f part)) (code : Code) :
    (k.readGuarded read code).run
      = .ok (k.sized code (k.fields.mapM fun f => result f (slice f code))) := by
  unfold readGuarded sized
  split
  . next hcode =>
    apply Guarded.run_mapM
    intro f hf
    rw [Guarded.run_bind_of_ok (Guarded.run_lift (sliceGuarded_eq hk hcode hf))]
    exact h f (slice f code)
  . rfl

theorem sized_eq_ok_iff {code : Code} {result : Except (Error α) β}
    (h : code.size = k.size → ∃ b, result = .ok b) :
    (∃ b, k.sized code result = .ok b) ↔ code.size = k.size := by
  unfold sized
  constructor
  . rintro ⟨b, hb⟩
    split at hb
    . assumption
    . contradiction
  . intro hcode
    rw [if_pos hcode]
    exact h hcode

theorem sized_of_ne {code : Code} (h : code.size ≠ k.size) (result : Except (Error α) β) :
    k.sized code result = .error (.size k.size code.size) :=
  if_neg h

theorem accepts_picture (hk : k.IsBuilt) : k.Accepts k.picture k.pictureGuarded where
  ok_iff code := sized_eq_ok_iff fun _ => ⟨_, rfl⟩
  error code h := sized_of_ne h _
  run code := by
    unfold pictureGuarded
    rw [Guarded.run_map (run_readGuarded hk (fun _ part => part.run_drawGuarded) code)]
    rw [map_sized]
    rw [mapM_eq_ok_map fun f _ => rfl]
    rfl

variable [Numeral α] (k)

def decodeGuarded (code : Code) : Guarded (Error α) (Decoding α) :=
  Decoding.mk <$> k.readGuarded (fun f part =>
    (fun decoded => (qualify k.name f.codec.displayName, decoded)) <$> f.codec.decodeGuarded part)
    code

def reconstructGuarded (code : Code) : Guarded (Error α) (List (Bucket α)) :=
  k.readGuarded (fun f part => f.codec.reconstructGuarded part) code

variable {k}

theorem accepts_decode (hk : k.IsBuilt) : k.Accepts k.decode k.decodeGuarded where
  ok_iff code := by
    apply sized_eq_ok_iff
    intro hcode
    have hdecode := decode_eq hk hcode
    unfold decode sized at hdecode
    rw [if_pos hcode] at hdecode
    exact ⟨_, hdecode⟩
  error code h := sized_of_ne h _
  run code := by
    unfold decodeGuarded
    rw [Guarded.run_map (run_readGuarded hk
      (fun f part => Guarded.run_map (f.codec.run_decodeGuarded part) _) code)]
    rw [map_sized]
    rfl

theorem accepts_reconstruct (hk : k.IsBuilt) : k.Accepts k.reconstruct k.reconstructGuarded where
  ok_iff code := by
    apply sized_eq_ok_iff
    intro hcode
    rw [exists_mapM_eq_ok_iff]
    intro f hf
    exact ⟨_, f.codec.reconstruct_eq (size_slice hk hcode hf)⟩
  error code h := sized_of_ne h _
  run := run_readGuarded hk fun f part => f.codec.run_reconstructGuarded part

structure IsTotal (k : MomentCodec α) : Prop where
  decode : k.Accepts k.decode k.decodeGuarded
  reconstruct : k.Accepts k.reconstruct k.reconstructGuarded
  picture : k.Accepts k.picture k.pictureGuarded
  parts : ∀ code : Code, code.size = k.size → ∀ f ∈ k.fields, ∃ part,
    code.sliceGuarded f.offset f.stop = .ok part ∧ part.size = f.codec.size
  hasRoom : ∀ f ∈ k.fields, f.codec.HasRoom

theorem IsBuilt.isTotal (hk : k.IsBuilt) : k.IsTotal where
  decode := accepts_decode hk
  reconstruct := accepts_reconstruct hk
  picture := accepts_picture hk
  parts _ hcode _ hf := ⟨_, sliceGuarded_eq hk hcode hf, size_slice hk hcode hf⟩
  hasRoom f _ := f.codec.hasRoom

end

/--
A codec decodes, matches and draws just the codes of its own size, and the careful programs for all
of this, and for the sizes of the fields, never have a flaw.
-/
theorem isTotal_of_build :
    (∀ {α : Type} [Arith α] (c : ScalarConfig α),
      c.sizesGuarded.run = .ok ((ScalarCodec.build c).map fun k => k.sizes)) ∧
    (∀ {α : Type} [Arith α] [Numeral α] {c : Config α} {k : MomentCodec α}, build c = .ok k →
      k.IsTotal) := by
  constructor
  . intro α _ c
    exact c.run_sizesGuarded
  . intro α _ _ c k h
    exact (isBuilt_of_build h).isTotal

/-- A code of one byte too few is refused, and bytes that are no bits do not matter. -/
theorem isTotal_of_build_uneven :
    let c : ScalarConfig Rat := { width := 7, low := 0, high := 1, radius := 1 }
    c.sizesGuarded.run = .ok (.ok ⟨3, 3, 14, 8⟩) ∧
    ∃ k, build uneven = .ok k ∧ k.IsTotal ∧
      k.decode ⟨List.replicate 79 7⟩ = .error (.size 80 79) ∧
      (∃ d, k.decode ⟨List.replicate 80 7⟩ = .ok d) ∧
      ∃ buckets, k.reconstruct ⟨List.replicate 80 7⟩ = .ok buckets := by
  intro c
  obtain ⟨l, hl, hsizes⟩ := exists_eq_ok_of_toOption (x := ScalarCodec.build c)
    (f := fun l => l.sizes) (b := ⟨3, 3, 14, 8⟩) (by decide +kernel)
  obtain ⟨k, hk, hsize⟩ := exists_eq_ok_of_toOption (x := build uneven) (f := fun k => k.size)
    (b := 80) (by decide +kernel)
  have htotal := isTotal_of_build.2 hk
  have hrun : c.sizesGuarded.run = .ok (.ok l.sizes) := by
    rw [isTotal_of_build.1 c]
    rw [hl]
    rfl
  rw [hsizes] at hrun
  refine ⟨hrun, k, hk, htotal, ?_, ?_, ?_⟩
  . rw [htotal.decode.error _ (by rw [hsize]; decide)]
    rw [hsize]
    rfl
  . rw [htotal.decode.ok_iff]
    rw [hsize]
    rfl
  . rw [htotal.reconstruct.ok_iff]
    rw [hsize]
    rfl

end MomentCodec

end CalendarCode
