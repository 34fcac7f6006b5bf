import CalendarCode.Numeral.Exact
import CalendarCode.Proofs.Aspect.Label
import CalendarCode.Proofs.MomentCodec.Construction
import CalendarCode.Proofs.MomentCodec.Encode
import Mathlib.Data.List.Nodup
import Mathlib.Logic.Function.Basic

/-!
This module contains the names of fields. Each name, be it that of an aspect or that of a scalar
codec, belongs to one field alone, so that no decoded field takes the place of another one and a
name always leads to its own field.
-/

namespace CalendarCode

namespace Decoding

variable {α : Type}

/--
What each name stands for after all fields are entered into an empty table in their order. A field
that is entered later takes the place of one with the same name.
-/
def table (d : Decoding α) : String → Option (Option (Decoded α)) :=
  d.entries.foldl enter fun _ => none
where
  enter (t : String → Option (Option (Decoded α))) (entry : String × Option (Decoded α)) :
      String → Option (Option (Decoded α)) :=
    Function.update t entry.1 (some entry.2)

theorem foldl_enter_of_nodup {entries : List (String × Option (Decoded α))}
    (h : (entries.map (·.1)).Nodup) (t : String → Option (Option (Decoded α))) (name : String) :
    entries.foldl table.enter t name = (entries.lookup name).or (t name) := by
  induction entries generalizing t with
  | nil => rfl
  | cons entry entries ih =>
    obtain ⟨key, decoded⟩ := entry
    obtain ⟨hkey, hrest⟩ := List.nodup_cons.mp h
    rw [List.foldl_cons]
    rw [ih hrest]
    rw [List.lookup_cons]
    unfold table.enter
    by_cases hname : name = key
    . subst hname
      have hnone : entries.lookup name = none := by
        rw [List.lookup_eq_none_iff]
        intro entry hentry
        rw [bne_iff_ne]
        rintro rfl
        exact hkey (List.mem_map.mpr ⟨entry, hentry, rfl⟩)
      rw [hnone]
      rw [beq_self_eq_true]
      simp
    . rw [beq_eq_false_iff_ne.mpr hname]
      rw [Function.update_of_ne hname]

theorem table_of_nodup {d : Decoding α} (h : d.names.Nodup) (name : String) :
    d.table name = d.entries.lookup name := by
  unfold table
  rw [foldl_enter_of_nodup h]
  rw [Option.or_none]

theorem get?_of_mem {d : Decoding α} (h : d.names.Nodup) {name : String}
    {decoded : Option (Decoded α)} (hmem : (name, decoded) ∈ d.entries) :
    d.get? name = decoded := by
  obtain ⟨front, rest, hentries⟩ := List.append_of_mem hmem
  have hlookup : d.entries.lookup name = some decoded := by
    rw [List.lookup_eq_some_iff]
    refine ⟨front, rest, hentries, ?_⟩
    intro entry hentry
    rw [bne_iff_ne]
    rintro rfl
    unfold names at h
    rw [hentries] at h
    rw [List.map_append] at h
    have hdisjoint := (List.nodup_append.mp h).2.2
    exact hdisjoint _ (List.mem_map_of_mem hentry) _ List.mem_cons_self rfl
  unfold get?
  rw [hlookup]
  rfl

end Decoding

variable {α : Type} [Arith α]

theorem Config.ne_name_of_resolves {c : Config α} {a b : Aspect} {plan : Plan α} {label : String}
    {days : Option DaySet} (h : c.Resolves a plan label days) (hb : b ≠ a) : label ≠ b.name := by
  cases h with
  | width =>
    rw [Ne, Aspect.name_inj]
    exact hb.symm
  | withRadius =>
    rw [Ne, Aspect.name_inj]
    exact hb.symm
  | customDays _ _ hdays => exact Aspect.label_ne_name hdays b

theorem Config.label_of_resolves {c : Config α} {a : Aspect} {plan : Plan α} {label : String}
    {days : Option DaySet} (h : c.Resolves a plan label days) (ha : a ≠ .customDays) :
    label = a.name := by
  cases h with
  | width => rfl
  | withRadius => rfl
  | customDays => contradiction

namespace MomentCodec

variable {c : Config α} {k : MomentCodec α}

theorem nodup_aspects (hk : k.IsCodecOf c) : (k.fields.map Field.aspect).Nodup := by
  rw [hk.aspects]
  apply List.Nodup.filter
  decide

theorem eq_of_aspect (hk : k.IsCodecOf c) {f g : Field α} (hf : f ∈ k.fields) (hg : g ∈ k.fields)
    (h : f.aspect = g.aspect) : f = g :=
  List.inj_on_of_nodup_map (nodup_aspects hk) hf hg h

variable [Numeral α]

theorem displayName_of_mem (hk : k.IsCodecOf c) {f : Field α} (hf : f ∈ k.fields) :
    ∃ plan days, c.Resolves f.aspect plan f.codec.displayName days := by
  obtain ⟨-, plan, label, days, hresolves, hconfig⟩ := hk.fields f hf
  have hname : f.codec.displayName = label := by
    rw [hconfig]
    rfl
  rw [hname]
  exact ⟨plan, days, hresolves⟩

theorem displayName_ne_name (hk : k.IsCodecOf c) {f g : Field α} (hf : f ∈ k.fields)
    (hg : g ∈ k.fields) (h : f ≠ g) : f.codec.displayName ≠ g.aspect.name := by
  obtain ⟨plan, days, hresolves⟩ := displayName_of_mem hk hf
  apply Config.ne_name_of_resolves hresolves
  intro haspect
  exact h (eq_of_aspect hk hg hf haspect).symm

theorem displayName_inj (hk : k.IsCodecOf c) {f g : Field α} (hf : f ∈ k.fields)
    (hg : g ∈ k.fields) (h : f.codec.displayName = g.codec.displayName) : f = g := by
  by_contra hne
  -- one of two fields is not that of the custom days, and its codec has the name of its aspect
  by_cases hdays : g.aspect = .customDays
  . have hother : f.aspect ≠ .customDays := by
      intro haspect
      exact hne (eq_of_aspect hk hf hg (haspect.trans hdays.symm))
    obtain ⟨plan, days, hresolves⟩ := displayName_of_mem hk hf
    rw [Config.label_of_resolves hresolves hother] at h
    exact displayName_ne_name hk hg hf (Ne.symm hne) h.symm
  . obtain ⟨plan, days, hresolves⟩ := displayName_of_mem hk hg
    rw [Config.label_of_resolves hresolves hdays] at h
    exact displayName_ne_name hk hf hg hne h

theorem eq_of_isNamed_name (hk : k.IsCodecOf c) {f g : Field α} (hf : f ∈ k.fields)
    (hg : g ∈ k.fields) (h : g.isNamed f.name = true) : g = f := by
  unfold Field.isNamed at h
  rw [Bool.or_eq_true] at h
  rw [beq_iff_eq] at h
  rw [beq_iff_eq] at h
  rw [(hk.fields f hf).1] at h
  rcases h with h | h
  . rw [(hk.fields g hg).1] at h
    exact eq_of_aspect hk hg hf (Aspect.name_inj.mp h)
  . by_contra hne
    exact displayName_ne_name hk hg hf hne h

theorem eq_of_isNamed_displayName (hk : k.IsCodecOf c) {f g : Field α} (hf : f ∈ k.fields)
    (hg : g ∈ k.fields) (h : g.isNamed f.codec.displayName = true) : g = f := by
  unfold Field.isNamed at h
  rw [Bool.or_eq_true] at h
  rw [beq_iff_eq] at h
  rw [beq_iff_eq] at h
  rcases h with h | h
  . rw [(hk.fields g hg).1] at h
    by_contra hne
    exact displayName_ne_name hk hf hg (Ne.symm hne) h.symm
  . exact displayName_inj hk hg hf h

theorem fieldDescription?_of_unique {name : String} {f : Field α} (hf : f ∈ k.fields)
    (hname : f.isNamed name = true) (h : ∀ g ∈ k.fields, g.isNamed name = true → g = f) :
    k.fieldDescription? name = some (f.offset, f.size) := by
  have hfind : k.layout.find? name = some f := find?_eq_some_of_unique hf hname h
  unfold fieldDescription?
  rw [hfind]
  rfl

theorem qualify_inj (qualifier : String) {a b : String}
    (h : qualify qualifier a = qualify qualifier b) : a = b := by
  unfold qualify at h
  split at h
  . exact h
  . exact (String.append_right_inj _).mp h

def qualifiedNames (k : MomentCodec α) : List String :=
  k.fields.map fun f => qualify k.name f.codec.displayName

theorem nodup_qualifiedNames (hk : k.IsCodecOf c) : k.qualifiedNames.Nodup := by
  unfold qualifiedNames
  apply List.Nodup.map_on
  . intro f hf g hg h
    exact displayName_inj hk hf hg (qualify_inj k.name h)
  . exact List.Nodup.of_map _ (nodup_aspects hk)

structure NamesFields (k : MomentCodec α) : Prop where
  decode : ∀ code : Code, code.size = k.size → ∃ d, k.decode code = .ok d ∧
    d.names = k.qualifiedNames ∧ d.names.Nodup ∧
    (∀ name, d.table name = d.entries.lookup name) ∧
    ∀ (i : Nat) (f : Field α), k.fields[i]? = some f →
      ∃ decoded, f.codec.decode (slice f code) = .ok decoded ∧
        d.entries[i]? = some (qualify k.name f.codec.displayName, decoded) ∧
        d.get? (qualify k.name f.codec.displayName) = decoded
  fieldDescription? : ∀ f ∈ k.fields,
    k.fieldDescription? f.name = some (f.offset, f.size) ∧
    k.fieldDescription? f.codec.displayName = some (f.offset, f.size)

theorem names_of_entries (k : MomentCodec α) (read : Field α → Option (Decoded α)) :
    (Decoding.mk (k.fields.map fun f => (qualify k.name f.codec.displayName, read f))).names
      = k.qualifiedNames := by
  unfold Decoding.names qualifiedNames
  rw [List.map_map]
  rfl

theorem get?_of_entries (hk : k.IsCodecOf c) (read : Field α → Option (Decoded α)) {f : Field α}
    (hf : f ∈ k.fields) :
    (Decoding.mk (k.fields.map fun f => (qualify k.name f.codec.displayName, read f))).get?
      (qualify k.name f.codec.displayName) = read f := by
  apply Decoding.get?_of_mem
  . rw [names_of_entries]
    exact nodup_qualifiedNames hk
  . rw [List.mem_map]
    exact ⟨f, hf, rfl⟩

/--
The fields of a decoded code have different names, whatever the codec and the custom days are
called, and both names of a field lead to it.
-/
theorem namesFields_of_build (h : build c = .ok k) : k.NamesFields where
  decode := by
    intro code hcode
    have hbuilt := isBuilt_of_build h
    have hnames := names_of_entries k fun f => f.codec.read (slice f code)
    have hnodup := nodup_qualifiedNames (isCodecOf_of_build h)
    rw [← hnames] at hnodup
    refine ⟨_, decode_eq hbuilt hcode, hnames, hnodup, Decoding.table_of_nodup hnodup, ?_⟩
    intro i f hi
    have hf := List.mem_of_getElem? hi
    refine ⟨f.codec.read (slice f code), ?_, ?_, ?_⟩
    . unfold ScalarCodec.decode
      rw [if_pos (size_slice hbuilt hcode hf)]
    . rw [List.getElem?_map]
      rw [hi]
      rfl
    . exact get?_of_entries (isCodecOf_of_build h) _ hf
  fieldDescription? := by
    intro f hf
    have hk := isCodecOf_of_build h
    constructor
    . apply fieldDescription?_of_unique hf
      . unfold Field.isNamed
        rw [beq_self_eq_true]
        rfl
      . exact fun g hg => eq_of_isNamed_name hk hf hg
    . apply fieldDescription?_of_unique hf
      . unfold Field.isNamed
        rw [beq_self_eq_true]
        rw [Bool.or_true]
      . exact fun g hg => eq_of_isNamed_displayName hk hf hg

def market : Config Rat where
  weekend := .width 3
  customDays := .enabled 3 (.many [" WED", "sunday\t", "wed"])
  name := "market"

theorem namesFields_of_build_market : ∃ k, build market = .ok k ∧ k.size = 12 ∧
    k.qualifiedNames = ["market.weekend", "market. WED sunday\t wed"] ∧
    k.NamesFields ∧ ∃ d, k.decode (.zeros 12) = .ok d ∧
      d.names = ["market.weekend", "market. WED sunday\t wed"] ∧ d.names.Nodup := by
  obtain ⟨k, hk, hmarket⟩ := exists_eq_ok_of_toOption (x := build market)
    (f := fun k => (k.size, k.qualifiedNames))
    (b := (12, ["market.weekend", "market. WED sunday\t wed"])) (by decide +kernel)
  obtain ⟨hsize, hqualified⟩ := Prod.mk.inj hmarket
  have hnames := namesFields_of_build hk
  obtain ⟨d, hd, hdnames, hnodup, -⟩ := hnames.decode (.zeros 12) (by rw [Code.size_zeros, hsize])
  rw [hqualified] at hdnames
  exact ⟨k, hk, hsize, hqualified, hnames, d, hd, hdnames, hnodup⟩

end MomentCodec

end CalendarCode
