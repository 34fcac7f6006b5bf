import CalendarCode.Proofs.Code.Picture
import CalendarCode.Proofs.MomentCodec.Names
import CalendarCode.Proofs.MomentCodec.Reconstruct

/-!
This module contains what one field has to do with the others: nothing. Two codecs that agree on
the setting of an aspect encode it alike, whatever else they are made of. What a code says about it
depends on which positions of its own part are active, and not on the rest of the code or the bytes.
-/

namespace CalendarCode

variable {α : Type} [Arith α]

namespace ScalarCodec

variable (k : ScalarCodec α) {a b : Code}

def encode? (v : Option α) : Code :=
  match v with
  | some v => k.encode v
  | none => .zeros k.size

theorem read_congr (h : a.activity = b.activity) : k.read a = k.read b := by
  unfold read row
  rw [h]

end ScalarCodec

theorem Aspect.value_congr {a : Aspect} (h : a ≠ .customDays) (days other : DaySet) (m : Moment) :
    (a.value days m : α) = a.value other m := by
  cases a with
  | customDays => contradiction
  | season => rfl
  | dayOfWeek => rfl
  | weekend => rfl
  | holiday => rfl
  | timeOfDay => rfl

omit [Arith α] in
theorem Config.isEnabled_of_agreesAt {c d : Config α} {a : Aspect} (h : c.AgreesAt d a) :
    d.isEnabled a = c.isEnabled a := by
  unfold Config.isEnabled
  split
  . next ha => rw [h.customDays ha]
  . rw [h.setting]

theorem Config.days_of_resolves {c : Config α} {plan : Plan α} {label : String}
    {days : Option DaySet} (h : c.Resolves .customDays plan label days) :
    ∃ w names ds, c.customDays = .enabled w names ∧ DaySet.ofNames names.toList = .ok ds ∧
      days = some ds := by
  cases h with
  | width hs => exact absurd rfl (ne_customDays hs nofun)
  | withRadius hs => exact absurd rfl (ne_customDays hs nofun)
  | customDays hs _ hdays => exact ⟨_, _, _, hs, hdays, rfl⟩

namespace MomentCodec

variable {c d : Config α} {k l : MomentCodec α} {a : Aspect}

structure HasField (k : MomentCodec α) (a : Aspect) (i : Nat) (f : Field α) : Prop where
  getElem? : k.fields[i]? = some f
  aspect : f.aspect = a
  unique : ∀ (j : Nat) (g : Field α), k.fields[j]? = some g → g.aspect = a → j = i

theorem HasField.mem {i : Nat} {f : Field α} (h : k.HasField a i f) : f ∈ k.fields :=
  List.mem_of_getElem? h.getElem?

theorem exists_hasField (hk : k.IsCodecOf c) (ha : c.isEnabled a = true) :
    ∃ i f, k.HasField a i f := by
  have hmem : a ∈ k.fields.map Field.aspect := by
    rw [hk.aspects]
    rw [List.mem_filter]
    exact ⟨a.mem_all, ha⟩
  obtain ⟨f, hf, haspect⟩ := List.mem_map.mp hmem
  obtain ⟨i, hi⟩ := List.mem_iff_getElem?.mp hf
  refine ⟨i, f, hi, haspect, ?_⟩
  intro j g hj hg
  have hlt : j < (k.fields.map Field.aspect).length := by
    rw [List.length_map]
    exact (List.getElem?_eq_some_iff.mp hj).1
  rw [← List.getElem?_inj hlt (nodup_aspects hk)]
  rw [List.getElem?_map]
  rw [List.getElem?_map]
  rw [hj]
  rw [hi]
  rw [Option.map_some]
  rw [Option.map_some]
  rw [hg]
  rw [haspect]

theorem codec_congr (hk : build c = .ok k) (hl : build d = .ok l) (h : c.AgreesAt d a)
    {f g : Field α} (hf : f ∈ k.fields) (hg : g ∈ l.fields) (hfa : f.aspect = a)
    (hga : g.aspect = a) : f.codec = g.codec := by
  obtain ⟨p, hp, -, hpcodec⟩ := exists_part_of_mem hk hf
  obtain ⟨q, hq, -, hqcodec⟩ := exists_part_of_mem hl hg
  rw [hga] at hq
  rw [part?_of_agreesAt h] at hq
  rw [hfa] at hp
  rw [hp] at hq
  cases hq
  rw [← hpcodec]
  exact hqcodec

theorem days_congr (hk : k.IsCodecOf c) (hl : l.IsCodecOf d) (ha : c.isEnabled .customDays = true)
    (h : c.AgreesAt d .customDays) : k.days = l.days := by
  have hsame := h.customDays rfl
  have hd : d.isEnabled .customDays = true := (Config.isEnabled_of_agreesAt h).trans ha
  obtain ⟨s, hs⟩ := Option.isSome_iff_exists.mp (hk.hasDays.trans ha)
  obtain ⟨t, ht⟩ := Option.isSome_iff_exists.mp (hl.hasDays.trans hd)
  obtain ⟨_, _, hks⟩ := hk.days s hs
  obtain ⟨_, _, hlt⟩ := hl.days t ht
  obtain ⟨_, _, _, hc, hcdays, hsome⟩ := Config.days_of_resolves hks
  obtain ⟨_, _, _, hd, hddays, htome⟩ := Config.days_of_resolves hlt
  rw [hsame] at hd
  rw [hc] at hd
  cases hd
  rw [hcdays] at hddays
  cases hddays
  rw [hs]
  rw [ht]
  rw [hsome]
  rw [htome]

theorem scalar_congr (hk : k.IsCodecOf c) (hl : l.IsCodecOf d) (ha : c.isEnabled a = true)
    (h : c.AgreesAt d a) {f g : Field α} (hf : f.aspect = a) (hg : g.aspect = a) (m : Moment) :
    k.scalar m f = l.scalar m g := by
  unfold scalar
  rw [hf]
  rw [hg]
  by_cases hdays : a = .customDays
  . subst hdays
    rw [days_congr hk hl ha h]
  . exact Aspect.value_congr hdays _ _ m

structure Encodes (k : MomentCodec α) (i : Nat) (f : Field α) (input : Input) (part : Code)
    (scalar : Option α) (bucket : Option Nat) : Prop where
  encode : slice f (k.encode input) = part
  isSome : scalar.isSome = input.isSome
  scalars : (k.scalars input).bind (·[i]?) = scalar
  buckets : (k.buckets input)[i]? = some bucket

theorem encodes_of_getElem? (hk : k.IsBuilt) {i : Nat} {f : Field α} (hi : k.fields[i]? = some f)
    (input : Input) (v : Option α) (hv : v = input.map fun m => k.scalar m f) :
    k.Encodes i f input (f.codec.encode? v) v (v.bind f.codec.bucket?) := by
  have hf := List.mem_of_getElem? hi
  subst hv
  cases input with
  | none =>
    refine ⟨slice_zeros hk hf, rfl, rfl, ?_⟩
    simp only [buckets, scalars, Option.map_none, List.getElem?_map, hi]
    rfl
  | some m =>
    refine ⟨slice_encode hk m hf, rfl, ?_, ?_⟩
    . simp only [scalars, Option.map_some, Option.bind_some, List.getElem?_map, hi]
    . simp only [buckets, scalars, Option.map_some, List.getElem?_zipWith, List.getElem?_map, hi]
      rfl

def drawing (k : MomentCodec α) (code : Code) : String :=
  " ".intercalate ((k.fields.map fun f => (slice f code).picture).map String.ofList)

theorem picture_eq (k : MomentCodec α) {code : Code} (hcode : code.size = k.size) :
    k.picture code = .ok (k.drawing code) := by
  unfold picture sized drawing
  rw [if_pos hcode]
  rw [List.map_map]
  rfl

theorem blank_not_mem_parts (k : MomentCodec α) (code : Code) :
    ∀ p ∈ k.fields.map (fun f => (slice f code).picture), ' ' ∉ p := by
  intro p hp
  obtain ⟨f, -, rfl⟩ := List.mem_map.mp hp
  exact (slice f code).blank_not_mem_picture

theorem groups_drawing (hne : k.fields ≠ []) (code : Code) :
    Code.groups (k.drawing code) = k.fields.map fun f => (slice f code).picture :=
  Code.groups_intercalate (mt List.map_eq_nil_iff.mp hne) (k.blank_not_mem_parts code)

variable [Numeral α]

structure Decodes (k : MomentCodec α) (i : Nat) (f : Field α) (code : Code)
    (decoded : Option (Decoded α)) (bucket : Bucket α) (picture : List Char) : Prop where
  decode : ∃ d, k.decode code = .ok d ∧
    d.entries[i]? = some (qualify k.name f.codec.displayName, decoded) ∧
    d.get? (qualify k.name f.codec.displayName) = decoded
  reconstruct : ∃ buckets, k.reconstruct code = .ok buckets ∧ buckets[i]? = some bucket
  picture : ∃ text, k.picture code = .ok text ∧ (Code.groups text)[i]? = some picture

theorem decodes_of_getElem? (hk : build c = .ok k) {i : Nat} {f : Field α}
    (hi : k.fields[i]? = some f) {code : Code} (hcode : code.size = k.size) :
    k.Decodes i f code (f.codec.read (slice f code))
      (f.codec.bucket (f.codec.bestBucket (slice f code))) (slice f code).picture where
  decode := by
    refine ⟨_, decode_eq (isBuilt_of_build hk) hcode, ?_, ?_⟩
    . rw [List.getElem?_map]
      rw [hi]
      rfl
    . exact get?_of_entries (isCodecOf_of_build hk) _ (List.mem_of_getElem? hi)
  reconstruct := by
    refine ⟨k.fields.map fun f => f.codec.bucket (f.codec.bestBucket (slice f code)), ?_, ?_⟩
    . exact reconstruct_eq (isBuilt_of_build hk) hcode
    . rw [List.getElem?_map]
      rw [hi]
      rfl
  picture := by
    refine ⟨_, k.picture_eq hcode, ?_⟩
    rw [groups_drawing (List.ne_nil_of_mem (List.mem_of_getElem? hi))]
    rw [List.getElem?_map]
    rw [hi]
    rfl

/--
A field does not depend on the other ones. Two codecs that agree on the setting of an aspect make
the same of it in every input, and also in two codes with the same active positions in their parts
for it.
-/
theorem exists_encodes_decodes_of_agreesAt (hk : build c = .ok k) (hl : build d = .ok l)
    (ha : c.isEnabled a = true) (h : c.AgreesAt d a) :
    ∃ i j f g, k.HasField a i f ∧ l.HasField a j g ∧
      (∀ input, ∃ part scalar bucket,
        k.Encodes i f input part scalar bucket ∧ l.Encodes j g input part scalar bucket) ∧
      ∀ code other : Code, code.size = k.size → other.size = l.size →
        (slice f code).activity = (slice g other).activity →
        ∃ decoded bucket picture,
          k.Decodes i f code decoded bucket picture ∧
          l.Decodes j g other decoded bucket picture := by
  have hcodec := isCodecOf_of_build hk
  have hother := isCodecOf_of_build hl
  have hb : d.isEnabled a = true := (Config.isEnabled_of_agreesAt h).trans ha
  obtain ⟨i, f, hf⟩ := exists_hasField hcodec ha
  obtain ⟨j, g, hg⟩ := exists_hasField hother hb
  have hsame : f.codec = g.codec := codec_congr hk hl h hf.mem hg.mem hf.aspect hg.aspect
  refine ⟨i, j, f, g, hf, hg, ?_, ?_⟩
  . intro input
    have hscalar : (input.map fun m => k.scalar m f) = input.map fun m => l.scalar m g := by
      congr 1
      funext m
      exact scalar_congr hcodec hother ha h hf.aspect hg.aspect m
    have hencodes := encodes_of_getElem? (isBuilt_of_build hk) hf.getElem? input _ hscalar.symm
    rw [hsame] at hencodes
    exact ⟨_, _, _, hencodes, encodes_of_getElem? (isBuilt_of_build hl) hg.getElem? input _ rfl⟩
  . intro code other hcode hsize hactive
    have hdecodes := decodes_of_getElem? hk hf.getElem? hcode
    rw [hsame] at hdecodes
    rw [g.codec.read_congr hactive] at hdecodes
    rw [g.codec.bestBucket_congr hactive] at hdecodes
    rw [Code.picture_congr hactive] at hdecodes
    exact ⟨_, _, _, hdecodes, decodes_of_getElem? hl hg.getElem? hsize⟩

def rota : Config Rat where
  customDays := uneven.customDays
  name := "rota"

def crowded : Code :=
  ⟨List.replicate 18 9 ++ [0, 0, 0, 7, 200, 1] ++ List.replicate 56 3⟩

def alone : Code :=
  ⟨[0, 0, 0, 255, 1, 2]⟩

theorem exists_encodes_decodes_of_agreesAt_rota : ∃ k l, build uneven = .ok k ∧
    build rota = .ok l ∧ uneven.isEnabled .customDays = true ∧
    uneven.AgreesAt rota .customDays ∧
    crowded.size = k.size ∧ alone.size = l.size ∧
    ∃ f g, k.HasField .customDays 1 f ∧ l.HasField .customDays 0 g ∧
      (slice f crowded).activity = [false, false, false, true, true, true] ∧
      (slice g alone).activity = [false, false, false, true, true, true] ∧
      (∃ part scalar bucket, k.Encodes 1 f (some leapSecond) part scalar bucket ∧
        l.Encodes 0 g (some leapSecond) part scalar bucket) ∧
      ∃ decoded bucket picture, k.Decodes 1 f crowded decoded bucket picture ∧
        l.Decodes 0 g alone decoded bucket picture := by
  obtain ⟨k, hk, hcrowded⟩ := exists_eq_ok_of_toOption (x := build uneven)
    (f := fun k => (k.size, k.fields[1]?.map fun f => (f.aspect, (slice f crowded).activity)))
    (b := (80, some (.customDays, [false, false, false, true, true, true])))
    (by decide +kernel)
  obtain ⟨l, hl, halone⟩ := exists_eq_ok_of_toOption (x := build rota)
    (f := fun l => (l.size, l.fields[0]?.map fun f => (f.aspect, (slice f alone).activity)))
    (b := (6, some (.customDays, [false, false, false, true, true, true])))
    (by decide +kernel)
  obtain ⟨hksize, hkfield⟩ := Prod.mk.inj hcrowded
  obtain ⟨hlsize, hlfield⟩ := Prod.mk.inj halone
  obtain ⟨f', hf', hfactive⟩ := Option.map_eq_some_iff.mp hkfield
  obtain ⟨g', hg', hgactive⟩ := Option.map_eq_some_iff.mp hlfield
  obtain ⟨hfaspect, hfactive⟩ := Prod.mk.inj hfactive
  obtain ⟨hgaspect, hgactive⟩ := Prod.mk.inj hgactive
  have hagrees : uneven.AgreesAt rota .customDays := ⟨rfl, fun _ => rfl⟩
  obtain ⟨i, j, f, g, hf, hg, hencodes, hdecodes⟩ :=
    exists_encodes_decodes_of_agreesAt hk hl rfl hagrees
  -- the fields that the look-ups give are the only ones for the custom days
  cases hf.unique 1 f' hf' hfaspect
  cases hg.unique 0 g' hg' hgaspect
  cases Option.some.inj (hf'.symm.trans hf.getElem?)
  cases Option.some.inj (hg'.symm.trans hg.getElem?)
  have hsize : crowded.size = k.size := hksize.symm
  have hother : alone.size = l.size := hlsize.symm
  exact ⟨k, l, hk, hl, rfl, hagrees, hsize, hother, f', g', hf, hg, hfactive, hgactive,
    hencodes _, hdecodes crowded alone hsize hother (hfactive.trans hgactive.symm)⟩

end MomentCodec

end CalendarCode
