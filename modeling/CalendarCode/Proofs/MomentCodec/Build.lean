import CalendarCode.Proofs.Layout
import CalendarCode.Proofs.MomentCodec.Part

/-!
This module contains what is known about codecs of moments that come out of a configuration: their
layout has no gaps, and the scalar codec of each field has the domain of its aspect.
-/

namespace CalendarCode

variable {α : Type} [Arith α]

structure ScalarCodec.HasDomain (k : ScalarCodec α) (a : Aspect) : Prop where
  low : k.low = a.low
  high : k.high = a.high
  periodic : k.periodic = a.periodic

namespace MomentCodec

structure IsBuilt (k : MomentCodec α) : Prop where
  isTight : k.layout.IsTight
  hasDomain : ∀ f ∈ k.fields, f.codec.HasDomain f.aspect

theorem layout_ofParts (c : Config α) (parts : List (Part α)) : (ofParts c parts).layout
    = .ofPushes (parts.map fun p => (p.aspect, p.aspect.name, p.codec)) := by
  unfold Layout.ofPushes
  rw [List.foldl_map]
  rfl

theorem fields_ofParts (c : Config α) (parts : List (Part α)) :
    (ofParts c parts).fields.map (fun f => (f.aspect, f.name, f.codec))
      = parts.map fun p => (p.aspect, p.aspect.name, p.codec) := by
  unfold fields
  rw [layout_ofParts]
  rw [Layout.fields_ofPushes]

theorem mem_of_mem_fields_ofParts {c : Config α} {parts : List (Part α)} {f : Field α}
    (h : f ∈ (ofParts c parts).fields) :
    ∃ p ∈ parts, p.aspect = f.aspect ∧ p.aspect.name = f.name ∧ p.codec = f.codec := by
  have hmem : (f.aspect, f.name, f.codec)
      ∈ (ofParts c parts).fields.map fun f => (f.aspect, f.name, f.codec) :=
    List.mem_map_of_mem h
  rw [fields_ofParts] at hmem
  simp only [List.mem_map, Prod.mk.injEq] at hmem
  exact hmem

theorem build_eq_ok_iff {c : Config α} {k : MomentCodec α} : build c = .ok k ↔
    ∃ parts, Aspect.all.mapM (part? c) = .ok parts ∧ ofParts c (parts.filterMap id) = k := by
  unfold build
  rw [bind_eq_ok_iff]
  simp only [pure, Except.pure, Except.ok.injEq]

theorem part?_of_mem_parts {c : Config α} {parts : List (Option (Part α))}
    (h : Aspect.all.mapM (part? c) = .ok parts) {p : Part α} (hp : p ∈ parts.filterMap id) :
    part? c p.aspect = .ok (some p) := by
  rw [List.mem_filterMap] at hp
  obtain ⟨_, hq, rfl⟩ := hp
  obtain ⟨a, -, ha⟩ := exists_of_mem_mapM h hq
  rw [(part?_eq_some_iff.mp ha).1]
  exact ha

theorem exists_part_of_mem {c : Config α} {k : MomentCodec α} (h : build c = .ok k) {f : Field α}
    (hf : f ∈ k.fields) :
    ∃ p, part? c f.aspect = .ok (some p) ∧ f.name = f.aspect.name ∧ p.codec = f.codec := by
  obtain ⟨parts, hparts, rfl⟩ := build_eq_ok_iff.mp h
  obtain ⟨p, hp, haspect, hname, hcodec⟩ := mem_of_mem_fields_ofParts hf
  rw [← haspect]
  exact ⟨p, part?_of_mem_parts hparts hp, hname.symm, hcodec⟩

theorem isBuilt_of_build {c : Config α} {k : MomentCodec α} (h : build c = .ok k) : k.IsBuilt := by
  constructor
  . obtain ⟨parts, -, rfl⟩ := build_eq_ok_iff.mp h
    rw [layout_ofParts]
    exact Layout.isTight_ofPushes _
  . intro f hf
    obtain ⟨p, hp, -, hcodec⟩ := exists_part_of_mem h hf
    obtain ⟨-, plan, label, hresolves, hbuild⟩ := part?_eq_some_iff.mp hp
    have hconfig := ScalarCodec.toScalarConfig_of_build hbuild
    rw [← hcodec]
    rw [← aspect_of_resolves hresolves]
    constructor
    . rw [hconfig]
      rfl
    . rw [hconfig]
      rfl
    . rw [hconfig]
      rfl

end MomentCodec

end CalendarCode
