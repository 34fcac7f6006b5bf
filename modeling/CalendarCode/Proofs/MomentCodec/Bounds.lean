import CalendarCode.Proofs.Layout.Partition
import CalendarCode.Proofs.MomentCodec.Write

/-!
This module contains how the fields of a codec share the positions of its codes. Every position has
one owner, and no operation that works on the parts of the fields ever goes beyond the end of a
code.
-/

namespace CalendarCode

namespace InPlace

variable {α β γ : Type}

def reading (read : Code → Except (Error α) β) : InPlace α β := do
  let code ← get
  MonadExcept.ofExcept ((read code).mapError .error)

def Reads (p : InPlace α β) (read : Code → Except (Error α) β) : Prop :=
  ∀ code, p.exec code = ((read code).mapError .error, code)

theorem exec_reading (read : Code → Except (Error α) β) (code : Code) :
    (reading read).exec code = ((read code).mapError .error, code) := by
  unfold reading
  rw [exec_bind_of_ok (exec_get code)]
  rw [exec_ofExcept]

theorem Reads.map {p : InPlace α β} {read : Code → Except (Error α) β} (h : p.Reads read)
    (g : β → γ) : (g <$> p).Reads fun code => (read code).map g := by
  intro code
  have hcode := h code
  rw [map_eq_pure_bind]
  dsimp only
  cases hread : read code with
  | error e =>
    rw [hread] at hcode
    rw [exec_bind_of_error hcode]
    rfl
  | ok b =>
    rw [hread] at hcode
    rw [exec_bind_of_ok hcode]
    rfl

end InPlace

namespace MomentCodec

open InPlace

section

variable {α β γ : Type} [Arith α]

theorem map_sized (k : MomentCodec α) (code : Code) (result : Except (Error α) β) (g : β → γ) :
    (k.sized code result).map g = k.sized code (result.map g) := by
  unfold sized
  split
  . rfl
  . rfl

def readChecked (k : MomentCodec α) (read : Field α → Code → Except (Error α) β) :
    InPlace α (List β) := do
  checkSize k.size
  k.fields.mapM fun f => within f.offset f.size (reading (read f))

theorem reads_readChecked {k : MomentCodec α} (hk : k.IsBuilt)
    (read : Field α → Code → Except (Error α) β) : (k.readChecked read).Reads fun code =>
      k.sized code (k.fields.mapM fun f => read f (slice f code)) := by
  intro code
  unfold readChecked sized
  dsimp only
  by_cases hcode : code.size = k.size
  . rw [exec_bind_of_ok (exec_checkSize hcode)]
    rw [if_pos hcode]
    rw [← mapM_mapError]
    apply exec_mapM
    intro f hf
    have hroom : f.offset + f.size ≤ code.size := by
      rw [hcode]
      exact stop_le_size hk hf
    rw [exec_within hroom (exec_reading (read f) _)]
    rw [Code.splice_slice code hroom]
    rfl
  . rw [exec_bind_of_error (exec_checkSize_of_ne hcode)]
    rw [if_neg hcode]
    rfl

def pictureChecked (k : MomentCodec α) : InPlace α String :=
  " ".intercalate <$> k.readChecked fun _ part => .ok (String.ofList part.picture)

theorem reads_pictureChecked {k : MomentCodec α} (hk : k.IsBuilt) :
    k.pictureChecked.Reads k.picture := by
  intro code
  unfold pictureChecked
  rw [(reads_readChecked hk _).map]
  simp only [map_sized]
  rw [mapM_eq_ok_map fun f _ => rfl]
  rfl

variable [Numeral α]

def decodeChecked (k : MomentCodec α) : InPlace α (Decoding α) :=
  Decoding.mk <$> k.readChecked fun f part =>
    (f.codec.decode part).map fun decoded => (qualify k.name f.codec.displayName, decoded)

def reconstructChecked (k : MomentCodec α) : InPlace α (List (Bucket α)) :=
  k.readChecked fun f part => f.codec.reconstruct part

variable {k : MomentCodec α}

theorem reads_decodeChecked (hk : k.IsBuilt) : k.decodeChecked.Reads k.decode := by
  intro code
  unfold decodeChecked
  rw [(reads_readChecked hk _).map]
  simp only [map_sized]
  rfl

/--
Whether the positions of codes belong to one field each, and operations on the parts of the fields
find all of them within the code.
-/
structure HasOwners (k : MomentCodec α) : Prop where
  isPartition : k.layout.IsPartition
  isSome_owner?_iff : ∀ p, (k.layout.owner? p).isSome = true ↔ p < k.size
  owner?_iff : ∀ (p : Nat) (f : Field α),
    k.layout.owner? p = some f ↔ f ∈ k.fields ∧ f.offset ≤ p ∧ p < f.offset + f.size
  size_slice : ∀ code : Code, code.size = k.size → ∀ f ∈ k.fields,
    f.offset + f.size ≤ code.size ∧ (slice f code).size = f.codec.size
  encode : ∀ input, (k.write input).exec (.zeros k.size) = (.ok (), k.encode input)
  decode : k.decodeChecked.Reads k.decode
  reconstruct : k.reconstructChecked.Reads k.reconstruct
  picture : k.pictureChecked.Reads k.picture

theorem IsBuilt.hasOwners (hk : k.IsBuilt) : k.HasOwners where
  isPartition := hk.isTight.isPartition
  isSome_owner?_iff p := Layout.isSome_owner?_iff hk.isTight
  owner?_iff p f := Layout.owner?_eq_some_iff hk.isTight
  size_slice := by
    intro code hcode f hf
    refine ⟨?_, MomentCodec.size_slice hk hcode hf⟩
    rw [hcode]
    exact stop_le_size hk hf
  encode input := exec_write hk input (Code.size_zeros k.size)
  decode := reads_decodeChecked hk
  reconstruct := reads_readChecked hk _
  picture := reads_pictureChecked hk

end

/--
Whatever is pushed, the fields share the positions of the layout and are what has been pushed. So
each position of the codes of a codec has one owner, and all parts of fields lie within the codes.
-/
theorem isPartition_ofPushes_and_hasOwners :
    (∀ {α : Type} [Arith α] (pushes : List (Aspect × String × ScalarCodec α)),
      (Layout.ofPushes pushes).IsPartition ∧
      (Layout.ofPushes pushes).fields.map (fun f => (f.aspect, f.name, f.codec)) = pushes) ∧
    (∀ {α : Type} [Arith α] [Numeral α] {c : Config α} {k : MomentCodec α}, build c = .ok k →
      k.HasOwners) := by
  constructor
  . intro α _ pushes
    exact ⟨(Layout.isTight_ofPushes pushes).isPartition, Layout.fields_ofPushes pushes⟩
  . intro α _ _ c k h
    exact (isBuilt_of_build h).hasOwners

theorem isPartition_ofPushes_and_hasOwners_uneven : ∃ k, build uneven = .ok k ∧ k.size = 80 ∧
    k.HasOwners ∧ (k.layout.owner? 29).map (fun f => (f.aspect, f.offset, f.size))
      = some (.holiday, 24, 6) ∧
    (k.layout.owner? 79).isSome = true ∧ k.layout.owner? 80 = none := by
  obtain ⟨k, hk, howner⟩ := exists_eq_ok_of_toOption (x := build uneven)
    (f := fun k => (k.size, (k.layout.owner? 29).map fun f => (f.aspect, f.offset, f.size)))
    (b := (80, some (.holiday, 24, 6))) (by decide +kernel)
  obtain ⟨hsize, howner⟩ := Prod.mk.inj howner
  have howners := isPartition_ofPushes_and_hasOwners.2 hk
  refine ⟨k, hk, hsize, howners, howner, ?_, ?_⟩
  . rw [howners.isSome_owner?_iff]
    rw [hsize]
    decide
  . rw [← Option.not_isSome_iff_eq_none]
    rw [howners.isSome_owner?_iff]
    rw [hsize]
    decide

end MomentCodec

end CalendarCode
