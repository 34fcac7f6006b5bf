import CalendarCode.Proofs.MomentCodec.Reconstruct
import CalendarCode.Proofs.Scalar.Around

/-!
This module contains what tells a moment from missing data. A moment has a number in the domain of
every field, all active positions that the field can have, a bucket, and at least one range when its
code is decoded. Missing data has nothing of all this.
-/

namespace CalendarCode

namespace ScalarCodec

theorem read_zeros {α : Type} [Arith α] (k : ScalarCodec α) (n : Nat) :
    k.read (.zeros n) = none := by
  unfold read
  rw [Code.activity_zeros]
  rw [if_neg]
  simp

variable (k : ScalarCodec Rat)

theorem activeCount_encode (v : Rat) : (k.encode v).activeCount = k.width := by
  rw [encode_exact]
  exact k.activeCount_runCode (k.hasBucket_bucketOf v)

theorem exists_read_encode (v : Rat) : ∃ d, k.read (k.encode v) = some d ∧ d.ranges ≠ [] := by
  have hcontains : k.Contains (k.encode v) v := fun _ hp => hp
  have hdecode := k.decode_of_contains (k.size_encode v) hcontains
  unfold decode at hdecode
  rw [if_pos (k.size_encode v)] at hdecode
  refine ⟨_, Except.ok.inj hdecode, ?_⟩
  by_cases haround : k.GoesAround (k.encode v)
  . simp only
    rw [k.ranges_of_goesAround (k.size_encode v) haround]
    exact List.cons_ne_nil _ _
  . obtain ⟨range, hrange, -⟩ :=
      k.isNear_of_not_goesAround (k.size_encode v) hcontains haround
    exact List.ne_nil_of_mem hrange

end ScalarCodec

namespace Decoding

variable {α : Type}

theorem exists_get? {d : Decoding α} {P : Decoded α → Prop}
    (h : ∀ entry ∈ d.entries, ∃ r, entry.2 = some r ∧ P r) {name : String}
    (hname : name ∈ d.names) : ∃ r, d.get? name = some r ∧ P r := by
  obtain ⟨entries⟩ := d
  unfold names at hname
  unfold get?
  simp only at h hname ⊢
  induction entries with
  | nil => contradiction
  | cons entry entries ih =>
    obtain ⟨key, decoded⟩ := entry
    rw [List.lookup_cons]
    by_cases hkey : name = key
    . rw [beq_iff_eq.mpr hkey]
      exact h _ List.mem_cons_self
    . rw [beq_eq_false_iff_ne.mpr hkey]
      apply ih
      . intro entry hentry
        exact h entry (List.mem_cons_of_mem _ hentry)
      . exact (List.mem_cons.mp hname).resolve_left hkey

theorem get?_eq_none {d : Decoding α} (h : ∀ entry ∈ d.entries, entry.2 = none) (name : String) :
    d.get? name = none := by
  obtain ⟨entries⟩ := d
  unfold get?
  simp only at h ⊢
  induction entries with
  | nil => rfl
  | cons entry entries ih =>
    obtain ⟨key, decoded⟩ := entry
    rw [List.lookup_cons]
    split
    . exact h _ List.mem_cons_self
    . apply ih
      intro entry hentry
      exact h entry (List.mem_cons_of_mem _ hentry)

theorem description_eq_empty [Arith α] [Numeral α] {d : Decoding α}
    (h : ∀ entry ∈ d.entries, entry.2 = none) : d.description = "" := by
  unfold description
  rw [List.filterMap_eq_nil_iff.mpr]
  . rfl
  . intro entry hentry
    simp only
    rw [h entry hentry]
    rfl

end Decoding

namespace MomentCodec

structure LooksPresent (k : MomentCodec Rat) (m : Moment) : Prop where
  scalars : ∃ values, k.scalars (some m) = some values ∧ values.length = k.fields.length ∧
    ∀ (i : Nat) (f : Field Rat) (x : Rat), k.fields[i]? = some f → values[i]? = some x →
      f.aspect.low ≤ x ∧ x ≤ f.aspect.high ∧ (f.aspect.periodic = true → x < f.aspect.high)
  activeCount : ∀ f ∈ k.fields, (slice f (k.encode (some m))).activeCount = f.codec.width
  buckets : (k.buckets (some m)).length = k.fields.length ∧
    ∀ b ∈ k.buckets (some m), b.isSome = true
  decode : ∃ d, k.decode (k.encode (some m)) = .ok d ∧
    d.names = (k.fields.map fun f => qualify k.name f.codec.displayName) ∧
    (∀ entry ∈ d.entries, ∃ r, entry.2 = some r ∧ r.ranges ≠ []) ∧
    ∀ name ∈ d.names, ∃ r, d.get? name = some r ∧ r.ranges ≠ []

structure LooksMissing {α : Type} [Arith α] [Numeral α] (k : MomentCodec α) : Prop where
  scalars : k.scalars none = none
  encode : (k.encode none).bytes = List.replicate k.size 0
  buckets : k.buckets none = List.replicate k.fields.length none
  decode : ∃ d, k.decode (k.encode none) = .ok d ∧
    d.entries = (k.fields.map fun f => (qualify k.name f.codec.displayName, none)) ∧
    (∀ name, d.get? name = none) ∧ d.description = ""

section

variable {α : Type} [Arith α] [Numeral α] {k : MomentCodec α}

theorem decode_encode_none (hk : k.IsBuilt) : k.decode (k.encode none)
    = .ok ⟨k.fields.map fun f => (qualify k.name f.codec.displayName, none)⟩ := by
  rw [decode_eq hk (size_encode hk none)]
  congr 2
  apply List.map_congr_left
  intro f hf
  unfold encode
  rw [slice_zeros hk hf]
  rw [ScalarCodec.read_zeros]

theorem IsBuilt.looksMissing (hk : k.IsBuilt) : k.LooksMissing where
  scalars := rfl
  encode := rfl
  buckets := by
    simp [buckets, MomentCodec.scalars]
  decode := by
    have hentries : ∀ entry ∈ k.fields.map (fun f => (qualify k.name f.codec.displayName,
        (none : Option (Decoded α)))), entry.2 = none := by
      intro entry hentry
      obtain ⟨f, -, rfl⟩ := List.mem_map.mp hentry
      rfl
    refine ⟨_, decode_encode_none hk, rfl, ?_, ?_⟩
    . intro name
      exact Decoding.get?_eq_none hentries name
    . exact Decoding.description_eq_empty hentries

end

section

variable {k : MomentCodec Rat}

theorem IsBuilt.looksPresent (hk : k.IsBuilt) (m : Moment) : k.LooksPresent m where
  scalars := by
    refine ⟨k.fields.map (k.scalar m), rfl, by rw [List.length_map], ?_⟩
    intro i f x hf hx
    rw [List.getElem?_map] at hx
    rw [hf] at hx
    cases hx
    exact f.aspect.value_bounds _ m
  activeCount := by
    intro f hf
    rw [slice_encode hk m hf]
    exact f.codec.activeCount_encode _
  buckets := by
    rw [buckets_some]
    constructor
    . rw [List.length_map]
    . intro b hb
      obtain ⟨f, -, rfl⟩ := List.mem_map.mp hb
      rfl
  decode := by
    have hentries : ∀ entry ∈ k.fields.map (fun f => (qualify k.name f.codec.displayName,
        f.codec.read (slice f (k.encode (some m))))), ∃ r, entry.2 = some r ∧ r.ranges ≠ [] := by
      intro entry hentry
      obtain ⟨f, hf, rfl⟩ := List.mem_map.mp hentry
      simp only
      rw [slice_encode hk m hf]
      exact f.codec.exists_read_encode _
    refine ⟨_, decode_eq hk (size_encode hk (some m)), ?_, hentries, ?_⟩
    . unfold Decoding.names
      rw [List.map_map]
      rfl
    . intro name hname
      exact Decoding.exists_get? hentries hname

end

/--
A moment never looks like missing data, also in a leap second, and missing data always does.
-/
theorem looksPresent_looksMissing_of_build :
    (∀ {c : Config Rat} {k : MomentCodec Rat}, build c = .ok k → ∀ m : Moment, k.LooksPresent m) ∧
    (∀ {α : Type} [Arith α] [Numeral α] {c : Config α} {k : MomentCodec α}, build c = .ok k →
      k.LooksMissing) := by
  constructor
  . intro c k h m
    exact (isBuilt_of_build h).looksPresent m
  . intro α _ _ c k h
    exact (isBuilt_of_build h).looksMissing

theorem looksPresent_looksMissing_uneven : ∃ k, build uneven = .ok k ∧ k.fields.length = 4 ∧
    k.LooksPresent leapSecond ∧ k.LooksMissing := by
  obtain ⟨k, hk, hfour⟩ := exists_eq_ok_of_toOption (x := build uneven)
    (f := fun k => k.fields.length) (b := 4) (by decide +kernel)
  exact ⟨k, hk, hfour, looksPresent_looksMissing_of_build.1 hk leapSecond,
    looksPresent_looksMissing_of_build.2 hk⟩

end MomentCodec

end CalendarCode
