import CalendarCode.Arith.Exact
import CalendarCode.MomentCodec.Encode
import CalendarCode.Proofs.Config.RoundTrip
import CalendarCode.Proofs.MomentCodec.Construction

/-!
This module contains what becomes of a codec of moments when its configuration goes through JSON.
All radii of a configuration that has a codec are finite, so that it comes back, and a bare width of
zero plans the same as a disabled aspect, so that the codec works as before.
-/

namespace CalendarCode

variable {α : Type} [Arith α]

namespace Config

theorem radius_of_resolves {c : Config α} {a : Aspect} {w : Width} {radius : α} {plan : Plan α}
    {label : String} {days : Option DaySet} (hs : c.setting a = .withRadius w radius)
    (h : c.Resolves a plan label days) : plan.radius = radius := by
  cases h with
  | width hs' =>
    rw [hs] at hs'
    contradiction
  | withRadius hs' =>
    rw [hs] at hs'
    cases hs'
    rfl
  | customDays => contradiction

theorem hasFiniteRadii_of_builds {c : Config α}
    (h : ∀ a, c.isEnabled a = true → c.Builds a) : c.HasFiniteRadii := by
  intro a
  cases hs : c.setting a with
  | disabled => trivial
  | width w => trivial
  | withRadius w radius =>
    obtain ⟨plan, label, days, codec, hresolves, hcodec⟩ := h a (isEnabled_of_withRadius hs)
    have hconfig := ScalarCodec.toScalarConfig_of_build hcodec
    have hradius : codec.radius = radius := by
      rw [hconfig]
      exact radius_of_resolves hs hresolves
    have hfinite := codec.radius_finite
    rw [hradius] at hfinite
    exact hfinite

end Config

namespace MomentCodec

theorem part?_withoutZeros (c : Config α) (a : Aspect) : part? c.withoutZeros a = part? c a := by
  apply part?_congr
  . rw [Config.setting_withoutZeros]
    rw [Setting.plan_withoutZero]
  . intro _
    rfl

theorem build_withoutZeros {c : Config α} {k : MomentCodec α} (h : build c = .ok k) :
    build c.withoutZeros = .ok { k with config := c.withoutZeros } := by
  rw [build_eq_ok_iff] at h ⊢
  obtain ⟨parts, hparts, rfl⟩ := h
  refine ⟨parts, ?_, rfl⟩
  rw [funext (part?_withoutZeros c)]
  exact hparts

structure WorksLike (k l : MomentCodec α) : Prop where
  name : k.name = l.name
  description : k.description = l.description
  size : k.size = l.size
  days : k.days = l.days
  encode : ∀ input, k.encode input = l.encode input

theorem worksLike_withConfig {k : MomentCodec α} {c : Config α} (h : c.name = k.config.name) :
    WorksLike { k with config := c } k where
  name := h
  description := rfl
  size := rfl
  days := rfl
  encode input := by
    cases input <;> rfl

/--
A configuration that has a codec comes back from JSON, whatever the order of the fields, with every
bare width of zero as a disabled aspect. Its codec works like the one before.
-/
theorem ofJson_toJson_worksLike {c : Config α} {k : MomentCodec α} (h : build c = .ok k) :
    Config.ofJson c.toJson = .ok c.withoutZeros ∧
    (∀ fields, fields.Perm c.jsonFields → Config.ofJson (.object fields) = .ok c.withoutZeros) ∧
    Config.ofJson (.sortedObject c.jsonFields) = .ok c.withoutZeros ∧
    ∃ k', build c.withoutZeros = .ok k' ∧ k'.WorksLike k := by
  have hfinite := Config.hasFiniteRadii_of_builds (exists_build_eq_ok_iff.mp ⟨k, h⟩)
  refine ⟨?_, ?_, ?_, _, build_withoutZeros h, ?_⟩
  . rw [Config.toJson_eq]
    exact Config.ofJson_of_perm hfinite (.refl _)
  . intro fields hperm
    exact Config.ofJson_of_perm hfinite hperm
  . exact Config.ofJson_sortedObject hfinite
  . apply worksLike_withConfig
    rw [(isCodecOf_of_build h).config]
    rfl

def shop : Config Rat where
  season := .width 0
  dayOfWeek := .withRadius 3 (3 / 2)
  customDays := .enabled 3 (.one "Sunday")
  name := "shop"

theorem ofJson_toJson_worksLike_shop : ∃ k, build shop = .ok k ∧ k.size = 20 ∧
    Config.ofJson shop.toJson = .ok { shop with season := .disabled } ∧
    Config.ofJson (.object shop.jsonFields.reverse) = .ok { shop with season := .disabled } ∧
    ∃ k', build { shop with season := .disabled } = .ok k' ∧ k'.WorksLike k := by
  obtain ⟨k, hk, hsize⟩ := exists_eq_ok_of_toOption (x := build shop) (f := size) (b := 20)
    (by decide +kernel)
  obtain ⟨hread, hperm, -, hworks⟩ := ofJson_toJson_worksLike hk
  exact ⟨k, hk, hsize, hread, hperm _ (List.reverse_perm _), hworks⟩

end MomentCodec

end CalendarCode
