import CalendarCode.Proofs.Calendar.DayNames
import CalendarCode.Proofs.MomentCodec.Construction
import CalendarCode.Proofs.MomentCodec.Encode
import CalendarCode.Proofs.Scalar.Construction
import CalendarCode.Proofs.Scalar.Flag

/-!
This module contains codecs of moments that have a single field, which is a flag. Their codes are
those of the flag, and decoding tells it under the name of the field. For the custom days it says
whether a day is one of those that are named, and for the weekend whether it has begun.
-/

namespace CalendarCode

namespace Moment

def FallsOnWeekend (m : Moment) : Prop :=
  m.weekday = .saturday ∨ m.weekday = .sunday ∨
    m.weekday = .friday ∧ 18 * 60 + 1 ≤ m.clock.minuteOfDay

/-- The time of the day leaves out the seconds, so that the weekend begins with a whole minute. -/
theorem eighteen_lt_timeOfDay_iff (m : Moment) :
    (18 : Rat) < m.timeOfDay ↔ 18 * 60 + 1 ≤ m.clock.minuteOfDay := by
  have hminutes : (m.timeOfDay : Rat) = (m.clock.minuteOfDay : Rat) / 60 := by
    rw [timeOfDay_eq]
    unfold Clock.minuteOfDay
    push_cast
    ring
  rw [hminutes]
  rw [lt_div_iff₀ (by norm_num)]
  norm_cast

theorem isWeekend_iff (m : Moment) : m.isWeekend Rat = true ↔ m.FallsOnWeekend := by
  unfold isWeekend FallsOnWeekend
  rw [← eighteen_lt_timeOfDay_iff]
  cases m.weekday with
  | friday => simp
  | _ => simp

end Moment

namespace MomentCodec

section

variable {α : Type} [Arith α] {c : Config α}

theorem build_of_single {a : Aspect} {plan : Plan α} {label : String} {days : Option DaySet}
    {codec : ScalarCodec α} (hothers : ∀ b, b ≠ a → c.isEnabled b = false)
    (h : c.Resolves a plan label days)
    (hcodec : ScalarCodec.build (plan.scalarConfig label) = .ok codec) :
    build c = .ok (ofParts c [⟨a, codec, days⟩]) := by
  rw [build_eq_ok_iff]
  refine ⟨Aspect.all.map fun b => if b = a then some ⟨a, codec, days⟩ else none, ?_, ?_⟩
  . apply mapM_eq_ok_map
    intro b _
    split
    . next hb =>
      rw [hb]
      exact part?_of_codec h hcodec
    . next hb => exact part?_of_not_isEnabled (hothers b hb)
  . congr 1
    cases a <;> rfl

variable (p : Part α) (m : Moment)

theorem fields_ofParts_singleton :
    (ofParts c [p]).fields = [⟨p.aspect, p.aspect.name, p.codec, 0⟩] := rfl

theorem days_ofParts_singleton : (ofParts c [p]).days = p.days := by
  cases h : p.days with
  | none => simp [ofParts, h]
  | some days => simp [ofParts, h]

theorem encode_ofParts_singleton : (ofParts c [p]).encode (some m)
    = p.codec.encode (p.aspect.value (p.days.getD .empty) m) := by
  unfold encode scalar
  rw [fields_ofParts_singleton]
  rw [days_ofParts_singleton]
  ext1
  simp [Code.concat]

theorem decode_encode_ofParts_singleton [Numeral α] (hk : IsBuilt (ofParts c [p])) :
    (ofParts c [p]).decode ((ofParts c [p]).encode (some m))
      = .ok ⟨[(qualify c.name p.codec.displayName,
          p.codec.read ((ofParts c [p]).encode (some m)))]⟩ := by
  have hfield : ⟨p.aspect, p.aspect.name, p.codec, 0⟩ ∈ (ofParts c [p]).fields :=
    List.mem_singleton_self _
  rw [decode_eq hk (size_encode hk _)]
  rw [fields_ofParts_singleton]
  rw [List.map_singleton]
  rw [slice_encode hk m hfield]
  rw [encode_ofParts_singleton]
  unfold scalar
  rw [days_ofParts_singleton]
  rfl

end

def flagConfig (w : Nat) (label : String) : ScalarConfig Rat :=
  { width := w, low := 0, high := 1, radius := 1, name := some label }

theorem scalarConfig_eq_flagConfig {a : Aspect} (ha : a = .weekend ∨ a = .customDays) (w : Nat)
    (label : String) :
    ((⟨a, w, a.defaultRadius⟩ : Plan Rat).scalarConfig label) = flagConfig w label := by
  cases ha with
  | inl ha => rw [ha]; rfl
  | inr ha => rw [ha]; rfl

theorem steps_flagConfig (w : Nat) (label : String) : (flagConfig w label).steps = (w : Int) := by
  unfold ScalarConfig.steps flagConfig
  simp

/-- The code of a flag has two runs and one bucket more than a run has positions. -/
theorem isSmall_flagConfig_iff (w : Nat) (label : String) :
    (flagConfig w label).IsSmall ↔ 24 * (w + 1) < 2 ^ 63 := by
  have hceil : ⌈(flagConfig w label).steps⌉ = w := by
    rw [steps_flagConfig]
    exact Int.ceil_intCast _
  have hfloor : ⌊(flagConfig w label).steps + 1 / 2⌋ = w := by
    rw [steps_flagConfig]
    rw [Int.floor_intCast_add]
    rw [show ⌊(1 / 2 : Rat)⌋ = 0 by decide +kernel]
    exact add_zero _
  have hpositions : (flagConfig w label).positions = w + w := by
    rw [ScalarConfig.positions_eq]
    rw [hceil]
    rfl
  have hbuckets : (flagConfig w label).buckets = w + 1 := by
    unfold ScalarConfig.buckets
    rw [hfloor]
    rfl
  constructor
  . rintro ⟨-, hsmall⟩
    rw [hbuckets] at hsmall
    omega
  . intro hsmall
    constructor
    . rw [hpositions]
      omega
    . rw [hbuckets]
      omega

theorem exists_build_flagConfig_iff {w : Nat} (hw : w % 2 = 1) (label : String) :
    (∃ codec, ScalarCodec.build (flagConfig w label) = .ok codec) ↔ 24 * (w + 1) < 2 ^ 63 := by
  have hmeaningful : (flagConfig w label).IsMeaningful :=
    ⟨hw, zero_lt_one, zero_lt_one, nofun⟩
  rw [ScalarCodec.exists_build_iff]
  rw [isSmall_flagConfig_iff]
  exact and_iff_right hmeaningful

theorem isFlag_of_build {w : Nat} {label : String} {codec : ScalarCodec Rat}
    (h : ScalarCodec.build (flagConfig w label) = .ok codec) :
    codec.IsFlag ∧ codec.width = w ∧ codec.name = some label := by
  have hconfig := ScalarCodec.toScalarConfig_of_build h
  refine ⟨?_, ?_, ?_⟩
  . constructor <;> rw [hconfig] <;> rfl
  . rw [hconfig]
    rfl
  . rw [hconfig]
    rfl

/-- Whether the codes of a codec are those of a flag, and decoding tells it under a name. -/
structure IsFlag (k : MomentCodec Rat) (name : String) (width : Nat) (flag : Moment → Bool) :
    Prop where
  encode : ∀ m, k.encode (some m) = .flag width (flag m)
  decode : ∀ m, k.decode (k.encode (some m))
    = .ok ⟨[(name, some ⟨[(Aspect.flag (flag m), Aspect.flag (flag m))]⟩)]⟩

section

variable {c : Config Rat} {a : Aspect} {w : Width} {label : String} {days : Option DaySet}
  {flag : Moment → Bool}

theorem exists_build_iff_of_flag (hw : w.toNat % 2 = 1) (ha : a = .weekend ∨ a = .customDays)
    (hothers : ∀ b, b ≠ a → c.isEnabled b = false)
    (hresolves : c.Resolves a ⟨a, w.toNat, a.defaultRadius⟩ label days) :
    (∃ k, build c = .ok k) ↔ 24 * (w.toNat + 1) < 2 ^ 63 := by
  rw [← exists_build_flagConfig_iff hw label]
  rw [← scalarConfig_eq_flagConfig ha]
  constructor
  . rintro ⟨k, hk⟩
    obtain ⟨codec, hcodec⟩ := exists_codec_of_build hresolves hk
    exact ⟨codec, hcodec⟩
  . rintro ⟨codec, hcodec⟩
    exact ⟨_, build_of_single hothers hresolves hcodec⟩

theorem isFlag_of_build_flag {k : MomentCodec Rat} (ha : a = .weekend ∨ a = .customDays)
    (hname : c.name = "") (hothers : ∀ b, b ≠ a → c.isEnabled b = false)
    (hresolves : c.Resolves a ⟨a, w.toNat, a.defaultRadius⟩ label days)
    (hvalue : ∀ m, a.value (days.getD .empty) m = (Aspect.flag (flag m) : Rat))
    (hk : build c = .ok k) : k.IsFlag label w.toNat flag := by
  obtain ⟨codec, hcodec⟩ := exists_codec_of_build hresolves hk
  have hbuild := build_of_single hothers hresolves hcodec
  rw [scalarConfig_eq_flagConfig ha] at hcodec
  obtain ⟨hflag, hwidth, hlabel⟩ := isFlag_of_build hcodec
  rw [hk] at hbuild
  cases hbuild
  constructor
  . intro m
    rw [encode_ofParts_singleton]
    rw [hvalue]
    rw [hflag.encode_flag]
    rw [hwidth]
  . intro m
    rw [decode_encode_ofParts_singleton _ m (isBuilt_of_build hk)]
    rw [encode_ofParts_singleton]
    rw [hvalue]
    rw [hflag.read_encode_flag]
    rw [hname]
    unfold ScalarConfig.displayName
    rw [hlabel]
    rfl

end

theorem IsFlag.encode_eq_iff {k l : MomentCodec Rat} {first second : String} {width : Nat}
    {f g : Moment → Bool} (hk : k.IsFlag first width f) (hl : l.IsFlag second width g)
    (hwidth : 0 < width) (m : Moment) : k.encode (some m) = l.encode (some m) ↔ f m = g m := by
  rw [hk.encode]
  rw [hl.encode]
  exact Code.flag_inj hwidth

/-- Whether decoding says, under a name, if a moment has a property: one for yes, zero for no. -/
structure Tells (k : MomentCodec Rat) (name : String) (P : Moment → Prop) : Prop where
  yes : ∀ m, P m → k.decode (k.encode (some m)) = .ok ⟨[(name, some ⟨[(1, 1)]⟩)]⟩
  no : ∀ m, ¬P m → k.decode (k.encode (some m)) = .ok ⟨[(name, some ⟨[(0, 0)]⟩)]⟩

theorem IsFlag.tells {k : MomentCodec Rat} {name : String} {width : Nat} {flag : Moment → Bool}
    {P : Moment → Prop} (hk : k.IsFlag name width flag) (h : ∀ m, flag m = true ↔ P m) :
    k.Tells name P where
  yes := by
    intro m hm
    rw [hk.decode]
    rw [(h m).mpr hm]
    rw [Aspect.flag_true]
  no := by
    intro m hm
    rw [hk.decode]
    rw [← h] at hm
    rw [Bool.eq_false_of_not_eq_true hm]
    rw [Aspect.flag_false]

theorem ne_zero_of_odd {w : Width} (hw : w.toNat % 2 = 1) : w ≠ 0 := by
  rintro rfl
  contradiction

def weekendOnly (w : Width) : Config Rat :=
  { weekend := .width w }

def daysOnly (w : Width) (names : DayNames) : Config Rat :=
  { customDays := .enabled w names }

theorem isEnabled_weekendOnly (w : Width) (b : Aspect) (hb : b ≠ .weekend) :
    (weekendOnly w).isEnabled b = false := by
  cases b with
  | weekend => contradiction
  | _ => rfl

theorem isEnabled_daysOnly (w : Width) (names : DayNames) (b : Aspect) (hb : b ≠ .customDays) :
    (daysOnly w names).isEnabled b = false := by
  cases b with
  | customDays => contradiction
  | _ => rfl

variable {w : Width} {names : DayNames} {days : DaySet}

theorem exists_build_weekendOnly_iff (hw : w.toNat % 2 = 1) :
    (∃ k, build (weekendOnly w) = .ok k) ↔ 24 * (w.toNat + 1) < 2 ^ 63 :=
  exists_build_iff_of_flag hw (.inl rfl) (isEnabled_weekendOnly w)
    (.width rfl (ne_zero_of_odd hw))

theorem exists_build_daysOnly_iff (hw : w.toNat % 2 = 1)
    (hdays : DaySet.ofNames names.toList = .ok days) :
    (∃ k, build (daysOnly w names) = .ok k) ↔ 24 * (w.toNat + 1) < 2 ^ 63 :=
  exists_build_iff_of_flag hw (.inr rfl) (isEnabled_daysOnly w names)
    (.customDays rfl (ne_zero_of_odd hw) hdays)

theorem isFlag_weekendOnly (hw : w.toNat % 2 = 1) {k : MomentCodec Rat}
    (hk : build (weekendOnly w) = .ok k) : k.IsFlag "weekend" w.toNat (Moment.isWeekend Rat) :=
  isFlag_of_build_flag (.inl rfl) rfl (isEnabled_weekendOnly w)
    (.width rfl (ne_zero_of_odd hw)) (fun _ => rfl) hk

theorem isFlag_daysOnly (hw : w.toNat % 2 = 1) (hdays : DaySet.ofNames names.toList = .ok days)
    {k : MomentCodec Rat} (hk : build (daysOnly w names) = .ok k) :
    k.IsFlag names.label w.toNat fun m => days.contains m.weekday :=
  isFlag_of_build_flag (.inr rfl) rfl (isEnabled_daysOnly w names)
    (.customDays rfl (ne_zero_of_odd hw) hdays) (fun _ => rfl) hk

def SpellWeekend (names : List String) : Prop :=
  ∀ d, DaySet.Names names d ↔ d = .friday ∨ d = .saturday ∨ d = .sunday

theorem contains_eq_isWeekend_iff (hdays : DaySet.ofNames names.toList = .ok days)
    (h : SpellWeekend names.toList) (m : Moment) :
    days.contains m.weekday = m.isWeekend Rat
      ↔ ¬(m.weekday = .friday ∧ m.clock.minuteOfDay ≤ 18 * 60) := by
  rw [Bool.eq_iff_iff]
  rw [DaySet.contains_of_ofNames hdays]
  rw [h]
  rw [Moment.isWeekend_iff]
  unfold Moment.FallsOnWeekend
  cases m.weekday with
  | friday =>
    simp only [reduceCtorEq, or_self, or_false, true_and, false_or, true_iff, not_le]
    omega
  | _ => simp

/--
The codec of the weekend tells whether a moment falls on it, and the codec of custom days whether a
day is named. If the weekend is named with Friday, their codes are the same but for Fridays up to
six o'clock. There are such codecs for all odd widths whose tables fit into memory.
-/
theorem tells_weekend_customDays (w : Width) (hw : w.toNat % 2 = 1) :
    ((∃ l, build (weekendOnly w) = .ok l) ↔ 24 * (w.toNat + 1) < 2 ^ 63) ∧
    (∀ l, build (weekendOnly w) = .ok l → l.Tells "weekend" Moment.FallsOnWeekend) ∧
    ∀ names : DayNames, DaySet.AreDays names.toList →
      ((∃ k, build (daysOnly w names) = .ok k) ↔ 24 * (w.toNat + 1) < 2 ^ 63) ∧
      ∀ k, build (daysOnly w names) = .ok k →
        k.Tells names.label (fun m => DaySet.Names names.toList m.weekday) ∧
        (SpellWeekend names.toList → ∀ l, build (weekendOnly w) = .ok l → ∀ m,
          k.encode (some m) = l.encode (some m)
            ↔ ¬(m.weekday = .friday ∧ m.clock.minuteOfDay ≤ 18 * 60)) := by
  refine ⟨exists_build_weekendOnly_iff hw, ?_, ?_⟩
  . intro l hl
    exact (isFlag_weekendOnly hw hl).tells Moment.isWeekend_iff
  . intro names hnames
    obtain ⟨days, hdays⟩ := DaySet.exists_ofNames_iff.mpr hnames
    refine ⟨exists_build_daysOnly_iff hw hdays, ?_⟩
    intro k hk
    have hcustom := isFlag_daysOnly hw hdays hk
    constructor
    . apply hcustom.tells
      intro m
      exact DaySet.contains_of_ofNames hdays m.weekday
    . intro hspell l hl m
      rw [hcustom.encode_eq_iff (isFlag_weekendOnly hw hl) (by omega)]
      exact contains_eq_isWeekend_iff hdays hspell m

def friday : Date :=
  ⟨2024, 5, 31, by decide, by decide, by decide, by decide⟩

def sixOnFriday : Moment :=
  ⟨friday, { Clock.midnight with
    hour := 18, second := 47, hour_lt := by decide, second_lt := by decide, nano_lt := by decide }⟩

def afterSixOnFriday : Moment :=
  ⟨friday, { Clock.midnight with
    hour := 18, minute := 1, hour_lt := by decide, minute_lt := by decide, nano_lt := by decide }⟩

theorem tells_weekend_customDays_sixOnFriday :
    let names : DayNames := .many ["sun", " FRI", "Saturday", "friday"]
    ∃ k l : MomentCodec Rat, build (daysOnly 21 names) = .ok k ∧
      build (weekendOnly 21) = .ok l ∧
      k.decode (k.encode (some sixOnFriday))
        = .ok ⟨[("sun  FRI Saturday friday", some ⟨[(1, 1)]⟩)]⟩ ∧
      l.decode (l.encode (some sixOnFriday)) = .ok ⟨[("weekend", some ⟨[(0, 0)]⟩)]⟩ ∧
      k.encode (some sixOnFriday) ≠ l.encode (some sixOnFriday) ∧
      k.encode (some afterSixOnFriday) = l.encode (some afterSixOnFriday) := by
  intro names
  have hnames : DaySet.AreDays names.toList := by
    constructor
    . nofun
    . simp only [← Option.isSome_iff_exists]
      decide
  have hspell : SpellWeekend names.toList := by
    intro d
    cases d <;> decide
  obtain ⟨hexists, hweekend, hcustom⟩ := tells_weekend_customDays 21 (by decide)
  obtain ⟨hnamed, hdays⟩ := hcustom names hnames
  obtain ⟨l, hl⟩ := hexists.mpr (by decide)
  obtain ⟨k, hk⟩ := hnamed.mpr (by decide)
  obtain ⟨htells, hequal⟩ := hdays k hk
  refine ⟨k, l, hk, hl, ?_, ?_, ?_, ?_⟩
  . apply htells.yes
    decide
  . apply (hweekend l hl).no
    rw [← Moment.isWeekend_iff]
    decide +kernel
  . rw [Ne]
    rw [hequal hspell l hl]
    decide
  . rw [hequal hspell l hl]
    decide

end MomentCodec

end CalendarCode
