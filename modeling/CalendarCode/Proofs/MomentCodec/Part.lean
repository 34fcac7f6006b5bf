import CalendarCode.MomentCodec.Basic
import CalendarCode.Proofs.Except

/-!
This module contains what a configuration says about one aspect. The aspect is left out, or it has a
plan whose settings make a scalar codec, or it has a fault, and only one of these at a time.
-/

namespace CalendarCode

variable {α : Type}

theorem Config.ne_customDays {c : Config α} {a : Aspect} {s : Setting α} (hs : c.setting a = s)
    (h : s ≠ .disabled) : a ≠ .customDays := by
  rintro rfl
  exact h hs.symm

theorem Config.isEnabled_of_withRadius {c : Config α} {a : Aspect} {w : Width} {radius : α}
    (hs : c.setting a = .withRadius w radius) : c.isEnabled a = true := by
  unfold isEnabled
  rw [if_neg (ne_customDays hs nofun)]
  rw [hs]
  rfl

variable [Arith α]

namespace Config

variable (c : Config α)

/--
The plan that a configuration has for an aspect, with the name of the scalar codec and the custom
days. An aspect that is not enabled has no plan.
-/
inductive Resolves : Aspect → Plan α → String → Option DaySet → Prop where
  | width {a : Aspect} {w : Width} : c.setting a = .width w → w ≠ 0 →
    Resolves a ⟨a, w.toNat, a.defaultRadius⟩ a.name none
  | withRadius {a : Aspect} {w : Width} {radius : α} : c.setting a = .withRadius w radius → w ≠ 0 →
    Resolves a ⟨a, w.toNat, radius⟩ a.name none
  | customDays {w : Width} {names : DayNames} {days : DaySet} :
    c.customDays = .enabled w names → w ≠ 0 → DaySet.ofNames names.toList = .ok days →
      Resolves .customDays ⟨.customDays, w.toNat, Aspect.customDays.defaultRadius⟩ names.label
        (some days)

def Builds (a : Aspect) : Prop :=
  ∃ plan label days codec, c.Resolves a plan label days ∧
    ScalarCodec.build (plan.scalarConfig label) = .ok codec

inductive Fails : Aspect → ConfigFault α → Prop where
  | zeroWidthWithRadius {a : Aspect} {radius : α} : c.setting a = .withRadius 0 radius →
    Fails a (.inKey a.key .zeroWidthWithRadius)
  | zeroWidth {names : DayNames} : c.customDays = .enabled 0 names →
    Fails .customDays (.inKey Aspect.customDays.key .zeroWidth)
  | days {w : Width} {names : DayNames} {fault : DayFault} : c.customDays = .enabled w names →
    w ≠ 0 → DaySet.ofNames names.toList = .error fault → Fails .customDays (.days fault)
  | codec {a : Aspect} {plan : Plan α} {label : String} {days : Option DaySet}
    {fault : ConfigFault α} : c.Resolves a plan label days →
      ScalarCodec.build (plan.scalarConfig label) = .error fault → Fails a (.inKey a.key fault)

inductive Outcome (a : Aspect) : Except (ConfigFault α) (Option (MomentCodec.Part α)) → Prop where
  | leftOut : c.isEnabled a = false → Outcome a (.ok none)
  | part {plan : Plan α} {label : String} {days : Option DaySet} {codec : ScalarCodec α} :
    c.Resolves a plan label days → ScalarCodec.build (plan.scalarConfig label) = .ok codec →
      Outcome a (.ok (some ⟨a, codec, days⟩))
  | fault {e : ConfigFault α} : c.Fails a e → Outcome a (.error e)

end Config

namespace MomentCodec

variable {c : Config α} {a : Aspect}

theorem part?_of_resolves {plan : Plan α} {label : String} {days : Option DaySet}
    (h : c.Resolves a plan label days) : part? c a = (do
      return some ⟨a, ← codecOf plan label, days⟩) := by
  unfold part?
  cases h with
  | width hs hw =>
    rw [if_neg (Config.ne_customDays hs nofun)]
    rw [hs]
    simp only [Setting.plan, if_neg hw]
    rfl
  | withRadius hs hw =>
    rw [if_neg (Config.ne_customDays hs nofun)]
    rw [hs]
    simp only [Setting.plan, if_neg hw]
    rfl
  | customDays hs hw hdays =>
    rw [if_pos rfl]
    rw [hs]
    simp only [CustomDays.plan, if_neg hw, hdays]
    rfl

theorem aspect_of_resolves {plan : Plan α} {label : String} {days : Option DaySet}
    (h : c.Resolves a plan label days) : plan.aspect = a := by
  cases h with
  | width => rfl
  | withRadius => rfl
  | customDays => rfl

theorem part?_of_codec {plan : Plan α} {label : String} {days : Option DaySet}
    {codec : ScalarCodec α} (h : c.Resolves a plan label days)
    (hcodec : ScalarCodec.build (plan.scalarConfig label) = .ok codec) :
    part? c a = .ok (some ⟨a, codec, days⟩) := by
  rw [part?_of_resolves h]
  unfold codecOf
  rw [hcodec]
  rfl

theorem part?_of_fails {e : ConfigFault α} (h : c.Fails a e) : part? c a = .error e := by
  cases h with
  | zeroWidthWithRadius hs =>
    unfold part?
    rw [if_neg (Config.ne_customDays hs nofun)]
    rw [hs]
    rfl
  | zeroWidth hs =>
    unfold part?
    rw [if_pos rfl]
    rw [hs]
    rfl
  | days hs hw hdays =>
    unfold part?
    rw [if_pos rfl]
    rw [hs]
    simp only [CustomDays.plan, if_neg hw, hdays]
    rfl
  | codec hresolves hcodec =>
    rw [part?_of_resolves hresolves]
    unfold codecOf
    rw [hcodec]
    rw [aspect_of_resolves hresolves]
    rfl

theorem part?_of_not_isEnabled (h : c.isEnabled a = false) : part? c a = .ok none := by
  unfold Config.isEnabled at h
  unfold part?
  by_cases ha : a = .customDays
  . rw [if_pos ha] at h ⊢
    cases hs : c.customDays with
    | disabled => rfl
    | enabled w names =>
      rw [hs] at h
      contradiction
  . rw [if_neg ha] at h ⊢
    cases hs : c.setting a with
    | disabled => rfl
    | width w =>
      rw [hs] at h
      simp only [Setting.isEnabled, bne_eq_false_iff_eq] at h
      rw [h]
      rfl
    | withRadius w radius =>
      rw [hs] at h
      contradiction

theorem exists_resolves_or_fails (h : c.isEnabled a = true) :
    (∃ plan label days, c.Resolves a plan label days) ∨ ∃ e, c.Fails a e := by
  unfold Config.isEnabled at h
  by_cases ha : a = .customDays
  . subst ha
    rw [if_pos rfl] at h
    cases hs : c.customDays with
    | disabled =>
      rw [hs] at h
      contradiction
    | enabled w names =>
      by_cases hw : w = 0
      . subst hw
        exact .inr ⟨_, .zeroWidth hs⟩
      . cases hdays : DaySet.ofNames names.toList with
        | ok days => exact .inl ⟨_, _, _, .customDays hs hw hdays⟩
        | error fault => exact .inr ⟨_, .days hs hw hdays⟩
  . rw [if_neg ha] at h
    cases hs : c.setting a with
    | disabled =>
      rw [hs] at h
      contradiction
    | width w =>
      rw [hs] at h
      simp only [Setting.isEnabled, bne_iff_ne] at h
      exact .inl ⟨_, _, _, .width hs h⟩
    | withRadius w radius =>
      by_cases hw : w = 0
      . subst hw
        exact .inr ⟨_, .zeroWidthWithRadius hs⟩
      . exact .inl ⟨_, _, _, .withRadius hs hw⟩

theorem outcome_part? (c : Config α) (a : Aspect) : c.Outcome a (part? c a) := by
  cases ha : c.isEnabled a with
  | false =>
    rw [part?_of_not_isEnabled ha]
    exact .leftOut ha
  | true =>
    rcases exists_resolves_or_fails ha with ⟨plan, label, days, hresolves⟩ | ⟨e, hfails⟩
    . cases hcodec : ScalarCodec.build (plan.scalarConfig label) with
      | ok codec =>
        rw [part?_of_codec hresolves hcodec]
        exact .part hresolves hcodec
      | error fault =>
        rw [part?_of_fails (.codec hresolves hcodec)]
        exact .fault (.codec hresolves hcodec)
    . rw [part?_of_fails hfails]
      exact .fault hfails

theorem part?_eq_error_iff {e : ConfigFault α} : part? c a = .error e ↔ c.Fails a e := by
  constructor
  . intro h
    have houtcome := outcome_part? c a
    rw [h] at houtcome
    cases houtcome with
    | fault hfails => exact hfails
  . exact part?_of_fails

theorem part?_eq_some_iff {p : Part α} : part? c a = .ok (some p) ↔ p.aspect = a ∧
    ∃ plan label, c.Resolves a plan label p.days ∧
      ScalarCodec.build (plan.scalarConfig label) = .ok p.codec := by
  constructor
  . intro h
    have houtcome := outcome_part? c a
    rw [h] at houtcome
    cases houtcome with
    | part hresolves hcodec => exact ⟨rfl, _, _, hresolves, hcodec⟩
  . rintro ⟨rfl, plan, label, hresolves, hcodec⟩
    exact part?_of_codec hresolves hcodec

theorem part?_eq_none_iff : part? c a = .ok none ↔ c.isEnabled a = false := by
  constructor
  . intro h
    have houtcome := outcome_part? c a
    rw [h] at houtcome
    cases houtcome with
    | leftOut ha => exact ha
  . exact part?_of_not_isEnabled

theorem isEnabled_of_resolves {plan : Plan α} {label : String} {days : Option DaySet}
    (h : c.Resolves a plan label days) : c.isEnabled a = true := by
  cases h with
  | width hs hw =>
    unfold Config.isEnabled
    rw [if_neg (Config.ne_customDays hs nofun)]
    rw [hs]
    exact bne_iff_ne.mpr hw
  | withRadius hs => exact Config.isEnabled_of_withRadius hs
  | customDays hs =>
    unfold Config.isEnabled
    rw [if_pos rfl]
    rw [hs]
    rfl

theorem exists_part?_eq_ok_iff :
    (∃ p, part? c a = .ok p) ↔ (c.isEnabled a = true → c.Builds a) := by
  constructor
  . rintro ⟨p, hp⟩ ha
    have houtcome := outcome_part? c a
    rw [hp] at houtcome
    cases houtcome with
    | leftOut hna =>
      rw [ha] at hna
      contradiction
    | part hresolves hcodec => exact ⟨_, _, _, _, hresolves, hcodec⟩
  . intro h
    cases ha : c.isEnabled a with
    | false => exact ⟨none, part?_of_not_isEnabled ha⟩
    | true =>
      obtain ⟨plan, label, days, codec, hresolves, hcodec⟩ := h ha
      exact ⟨_, part?_of_codec hresolves hcodec⟩

theorem isSome_days_of_resolves {plan : Plan α} {label : String} {days : Option DaySet}
    (h : c.Resolves a plan label days) : days.isSome = true ↔ a = .customDays := by
  cases h with
  | width hs =>
    constructor
    . nofun
    . intro ha
      exact absurd ha (Config.ne_customDays hs nofun)
  | withRadius hs =>
    constructor
    . nofun
    . intro ha
      exact absurd ha (Config.ne_customDays hs nofun)
  | customDays => simp

theorem part?_congr {d : Config α} (hsetting : (d.setting a).plan a = (c.setting a).plan a)
    (hdays : a = .customDays →
      d.customDays.plan = (c.customDays.plan : Except (ConfigFault α) (Option (DayPlan α)))) :
    part? d a = part? c a := by
  unfold part?
  by_cases ha : a = .customDays
  . rw [if_pos ha]
    rw [if_pos ha]
    rw [hdays ha]
  . rw [if_neg ha]
    rw [if_neg ha]
    rw [hsetting]

end MomentCodec

end CalendarCode
