import CalendarCode.Arith.Exact
import CalendarCode.Numeral.Exact
import CalendarCode.Proofs.MomentCodec.Build

/-!
This module contains how a codec of moments comes out of a configuration. There is one if every
enabled aspect has a scalar codec, and then it has a field for each of them. If not, the first
aspect with a fault gives it, whatever the later ones are.
-/

namespace CalendarCode

variable {α : Type} [Arith α]

namespace Aspect

def Before (a b : Aspect) : Prop :=
  all.idxOf a < all.idxOf b

theorem before_iff_mem {a b : Aspect} {front rest : List Aspect} (h : all = front ++ a :: rest) :
    b.Before a ↔ b ∈ front := by
  have hnodup : (front ++ a :: rest).Nodup := by
    rw [← h]
    decide
  have ha : a ∉ front := fun hmem =>
    (List.nodup_append.mp hnodup).2.2 a hmem a List.mem_cons_self rfl
  unfold Before
  rw [h]
  rw [List.idxOf_append_of_notMem ha]
  rw [List.idxOf_cons_self]
  by_cases hb : b ∈ front
  . rw [List.idxOf_append_of_mem hb]
    have hlt := List.idxOf_lt_length_iff.mpr hb
    simp only [hb, iff_true]
    omega
  . rw [List.idxOf_append_of_notMem hb]
    simp only [hb, iff_false]
    omega

end Aspect

namespace Config

structure FirstFault (c : Config α) (a : Aspect) (e : ConfigFault α) : Prop where
  before : ∀ b, b.Before a → c.isEnabled b = true → c.Builds b
  fails : c.Fails a e

structure AgreesAt (c d : Config α) (a : Aspect) : Prop where
  setting : d.setting a = c.setting a
  customDays : a = .customDays → d.customDays = c.customDays

end Config

namespace MomentCodec

variable {c d : Config α} {a : Aspect}

theorem build_eq_error_iff {e : ConfigFault α} :
    build c = .error e ↔ Aspect.all.mapM (part? c) = .error e := by
  unfold build
  rw [bind_eq_error_iff]
  constructor
  . rintro (h | ⟨parts, -, h⟩)
    . exact h
    . contradiction
  . exact .inl

theorem aspects_of_parts {aspects : List Aspect} {parts : List (Option (Part α))}
    (h : List.Forall₂ (fun a p => part? c a = .ok p) aspects parts) :
    (parts.filterMap id).map Part.aspect = aspects.filter c.isEnabled := by
  induction h with
  | nil => rfl
  | @cons a p aspects parts hp _ ih =>
    cases p with
    | none =>
      rw [List.filterMap_cons_none (f := id) rfl]
      rw [List.filter_cons_of_neg]
      . exact ih
      . rw [part?_eq_none_iff.mp hp]
        exact Bool.false_ne_true
    | some p =>
      obtain ⟨rfl, plan, label, hresolves, -⟩ := part?_eq_some_iff.mp hp
      rw [List.filterMap_cons_some (f := id) rfl]
      rw [List.map_cons]
      rw [List.filter_cons_of_pos (isEnabled_of_resolves hresolves)]
      rw [ih]

theorem isEnabled_customDays_iff {parts : List (Option (Part α))}
    (h : Aspect.all.mapM (part? c) = .ok parts) : c.isEnabled .customDays = true ↔
      ∃ p ∈ parts.filterMap id, p.days.isSome = true := by
  have haspects := aspects_of_parts (mapM_eq_ok_iff.mp h)
  have hmem : c.isEnabled .customDays = true ↔
      .customDays ∈ (parts.filterMap id).map Part.aspect := by
    rw [haspects]
    rw [List.mem_filter]
    exact (and_iff_right (Aspect.mem_all _)).symm
  rw [hmem]
  rw [List.mem_map]
  constructor
  . rintro ⟨p, hp, ha⟩
    obtain ⟨-, plan, label, hresolves, -⟩ := part?_eq_some_iff.mp (part?_of_mem_parts h hp)
    exact ⟨p, hp, (isSome_days_of_resolves hresolves).mpr ha⟩
  . rintro ⟨p, hp, hdays⟩
    obtain ⟨-, plan, label, hresolves, -⟩ := part?_eq_some_iff.mp (part?_of_mem_parts h hp)
    exact ⟨p, hp, (isSome_days_of_resolves hresolves).mp hdays⟩

structure IsCodecOf (k : MomentCodec α) (c : Config α) : Prop where
  config : k.config = c
  aspects : k.fields.map Field.aspect = Aspect.all.filter c.isEnabled
  fields : ∀ f ∈ k.fields, f.name = f.aspect.name ∧ ∃ plan label days,
    c.Resolves f.aspect plan label days ∧ f.codec.toScalarConfig =
      ⟨plan.width, f.aspect.low, f.aspect.high, plan.radius, f.aspect.periodic, some label⟩
  hasDays : k.days.isSome = c.isEnabled .customDays
  days : ∀ d, k.days = some d → ∃ plan label, c.Resolves .customDays plan label (some d)

theorem isCodecOf_of_build {k : MomentCodec α} (h : build c = .ok k) : k.IsCodecOf c := by
  obtain ⟨parts, hparts, rfl⟩ := build_eq_ok_iff.mp h
  constructor
  . rfl
  . rw [← aspects_of_parts (mapM_eq_ok_iff.mp hparts)]
    have hfields := congrArg (List.map Prod.fst) (fields_ofParts c (parts.filterMap id))
    rw [List.map_map] at hfields
    rw [List.map_map] at hfields
    exact hfields
  . intro f hf
    obtain ⟨p, hp, hname, hcodec⟩ := exists_part_of_mem h hf
    obtain ⟨-, plan, label, hresolves, hbuild⟩ := part?_eq_some_iff.mp hp
    refine ⟨hname, plan, label, p.days, hresolves, ?_⟩
    rw [← hcodec]
    rw [ScalarCodec.toScalarConfig_of_build hbuild]
    rw [← aspect_of_resolves hresolves]
    rfl
  . rw [Bool.eq_iff_iff]
    rw [isEnabled_customDays_iff hparts]
    exact List.findSome?_isSome_iff
  . intro d hd
    obtain ⟨p, hp, hdays⟩ := List.exists_of_findSome?_eq_some hd
    obtain ⟨-, plan, label, hresolves, -⟩ := part?_eq_some_iff.mp (part?_of_mem_parts hparts hp)
    have ha := (isSome_days_of_resolves hresolves).mp (Option.isSome_of_eq_some hdays)
    rw [ha] at hresolves
    rw [hdays] at hresolves
    exact ⟨plan, label, hresolves⟩

theorem exists_build_eq_ok_iff :
    (∃ k, build c = .ok k) ↔ ∀ a, c.isEnabled a = true → c.Builds a := by
  have hparts : (∃ k, build c = .ok k) ↔ ∃ parts, Aspect.all.mapM (part? c) = .ok parts := by
    constructor
    . rintro ⟨k, hk⟩
      obtain ⟨parts, hparts, -⟩ := build_eq_ok_iff.mp hk
      exact ⟨parts, hparts⟩
    . rintro ⟨parts, hparts⟩
      exact ⟨_, build_eq_ok_iff.mpr ⟨parts, hparts, rfl⟩⟩
  rw [hparts]
  rw [exists_mapM_eq_ok_iff]
  constructor
  . intro h a
    exact exists_part?_eq_ok_iff.mp (h a (Aspect.mem_all a))
  . intro h a _
    exact exists_part?_eq_ok_iff.mpr (h a)

theorem exists_codec_of_build {k : MomentCodec α} {a : Aspect} {plan : Plan α} {label : String}
    {days : Option DaySet} (h : c.Resolves a plan label days) (hk : build c = .ok k) :
    ∃ codec, ScalarCodec.build (plan.scalarConfig label) = .ok codec := by
  cases hcodec : ScalarCodec.build (plan.scalarConfig label) with
  | ok codec => exact ⟨codec, rfl⟩
  | error fault =>
    have hbuilds := exists_build_eq_ok_iff.mp ⟨k, hk⟩ a
    obtain ⟨p, hp⟩ := exists_part?_eq_ok_iff.mpr hbuilds
    rw [part?_of_fails (.codec h hcodec)] at hp
    contradiction

theorem build_eq_error_iff_firstFault {e : ConfigFault α} :
    build c = .error e ↔ ∃ a, c.FirstFault a e := by
  rw [build_eq_error_iff]
  rw [mapM_eq_error_iff]
  constructor
  . rintro ⟨front, a, rest, hall, hfront, ha⟩
    refine ⟨a, ?_, part?_eq_error_iff.mp ha⟩
    intro b hb
    rw [← exists_part?_eq_ok_iff]
    exact hfront b ((Aspect.before_iff_mem hall).mp hb)
  . rintro ⟨a, hbefore, hfails⟩
    obtain ⟨front, rest, hall⟩ := List.mem_iff_append.mp (Aspect.mem_all a)
    refine ⟨front, a, rest, hall, ?_, part?_of_fails hfails⟩
    intro b hb
    rw [exists_part?_eq_ok_iff]
    exact hbefore b ((Aspect.before_iff_mem hall).mpr hb)

theorem part?_of_agreesAt (h : c.AgreesAt d a) : part? d a = part? c a := by
  apply part?_congr
  . rw [h.setting]
  . intro ha
    rw [h.customDays ha]

theorem firstFault_congr {e : ConfigFault α} (h : c.FirstFault a e)
    (hagrees : ∀ b, b.Before a ∨ b = a → c.AgreesAt d b) : d.FirstFault a e where
  before := by
    intro b hb
    rw [← exists_part?_eq_ok_iff]
    rw [part?_of_agreesAt (hagrees b (.inl hb))]
    rw [exists_part?_eq_ok_iff]
    exact h.before b hb
  fails := by
    rw [← part?_eq_error_iff]
    rw [part?_of_agreesAt (hagrees a (.inr rfl))]
    exact part?_of_fails h.fails

/--
There is a codec if every enabled aspect has a scalar codec, and then it is one of the
configuration. If not, the first aspect with a fault gives it, and those behind do not matter. A
fault of its scalar codec stands behind the key of the aspect.
-/
theorem build_isCodecOf_or_firstFault [Numeral α] (c : Config α) :
    ((∃ k, build c = .ok k) ↔ ∀ a, c.isEnabled a = true → c.Builds a) ∧
    (∀ k, build c = .ok k → k.IsCodecOf c) ∧
    (∀ e, build c = .error e ↔ ∃ a, c.FirstFault a e) ∧
    (∀ a e, c.FirstFault a e → ∀ d : Config α, (∀ b, b.Before a ∨ b = a → c.AgreesAt d b) →
      build d = .error e) ∧
    ∀ a plan label days fault e, c.Resolves a plan label days →
      ScalarCodec.build (plan.scalarConfig label) = .error fault → c.Fails a e →
        e = .inKey a.key fault ∧ e.message = a.key ++ ": " ++ fault.message := by
  refine ⟨exists_build_eq_ok_iff, fun k => isCodecOf_of_build,
    fun e => build_eq_error_iff_firstFault, ?_, ?_⟩
  . intro a e h d hagrees
    rw [build_eq_error_iff_firstFault]
    exact ⟨a, firstFault_congr h hagrees⟩
  . intro a plan label days fault e hresolves hbuild hfails
    have he := part?_of_fails hfails
    rw [part?_of_fails (.codec hresolves hbuild)] at he
    cases he
    exact ⟨rfl, rfl⟩

def daysOff : Config Rat where
  weekend := .width 3
  customDays := .enabled 5 (.many ["friday", "Sat"])
  timeOfDay := .withRadius 7 2

def twoFaults : Config Rat :=
  { daysOff with customDays := .enabled 4 (.one "Sun"), timeOfDay := .withRadius 0 2 }

def firstOfTwoFaults : Config Rat :=
  { twoFaults with timeOfDay := .disabled }

theorem firstFault_twoFaults :
    twoFaults.FirstFault .customDays (.inKey "customDays" (.evenWidth 4)) where
  before := by
    obtain ⟨codec, hcodec, -⟩ := exists_eq_ok_of_toOption
      (x := ScalarCodec.build (α := Rat) (Plan.scalarConfig ⟨.weekend, 3, 1⟩ "weekend"))
      (f := (·.size)) (b := 6) (by decide +kernel)
    intro b hb ha
    cases b with
    | weekend =>
      exact ⟨_, _, _, codec, .width rfl (by decide), hcodec⟩
    | season => contradiction
    | dayOfWeek => contradiction
    | customDays => contradiction
    | holiday => contradiction
    | timeOfDay => contradiction
  fails := .codec (.customDays rfl (by decide) rfl) rfl

theorem build_isCodecOf_or_firstFault_daysOff :
    (∃ k, build daysOff = .ok k ∧ k.size = 100 ∧ k.IsCodecOf daysOff ∧
      k.fields.map Field.aspect = [.weekend, .customDays, .timeOfDay]) ∧
    build twoFaults = .error (.inKey "customDays" (.evenWidth 4)) ∧
    build firstOfTwoFaults = .error (.inKey "customDays" (.evenWidth 4)) ∧
    (ConfigFault.inKey (α := Rat) "customDays" (.evenWidth 4)).message
      = "customDays: width must be an odd number, got 4" := by
  have hagrees : ∀ b, b.Before .customDays ∨ b = .customDays →
      twoFaults.AgreesAt firstOfTwoFaults b := by
    intro b hb
    cases b with
    | timeOfDay => rcases hb with hb | hb <;> contradiction
    | season => exact ⟨rfl, fun _ => rfl⟩
    | dayOfWeek => exact ⟨rfl, fun _ => rfl⟩
    | weekend => exact ⟨rfl, fun _ => rfl⟩
    | customDays => exact ⟨rfl, fun _ => rfl⟩
    | holiday => exact ⟨rfl, fun _ => rfl⟩
  refine ⟨?_, ?_, ?_, ?_⟩
  . obtain ⟨k, hk, hsize⟩ := exists_eq_ok_of_toOption (x := build daysOff) (f := size) (b := 100)
      (by decide +kernel)
    have hcodec := (build_isCodecOf_or_firstFault daysOff).2.1 k hk
    exact ⟨k, hk, hsize, hcodec, hcodec.aspects⟩
  . exact ((build_isCodecOf_or_firstFault twoFaults).2.2.1 _).mpr ⟨_, firstFault_twoFaults⟩
  . exact (build_isCodecOf_or_firstFault twoFaults).2.2.2.1 _ _ firstFault_twoFaults _ hagrees
  . exact ((build_isCodecOf_or_firstFault twoFaults).2.2.2.2 .customDays _ _ _ _ _
      (.customDays rfl (by decide) rfl) rfl firstFault_twoFaults.fails).2

end MomentCodec

end CalendarCode
