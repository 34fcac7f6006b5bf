import CalendarCode.Proofs.Calendar
import CalendarCode.Proofs.Timestamp.Form
import Mathlib.Data.Prod.Lex
import Mathlib.Data.Rat.Floor

/-!
This module contains the shape of the closeness to a holiday. Drawn over the time since the midnight
at which the holiday begins, it is a trapezoid: level during the holiday, with a slope of one day on
each side. Whole seconds are counted, so the slopes are stairs.
-/

namespace CalendarCode

namespace Moment

def place (m : Moment) : Int ×ₗ Nat ×ₗ Nat ×ₗ Nat :=
  toLex (m.date.year, toLex (m.date.dayOfYear, toLex (m.clock.secondOfDay, m.clock.nano)))

instance : LE Moment where
  le m m' := m.place ≤ m'.place

instance : DecidableLE Moment :=
  fun m m' => inferInstanceAs (Decidable (m.place ≤ m'.place))

theorem le_iff {m m' : Moment} (h : m.date.year = m'.date.year) : m ≤ m' ↔
    m.date.dayOfYear < m'.date.dayOfYear ∨ m.date.dayOfYear = m'.date.dayOfYear ∧
      (m.clock.secondOfDay < m'.clock.secondOfDay ∨
        m.clock.secondOfDay = m'.clock.secondOfDay ∧ m.clock.nano ≤ m'.clock.nano) := by
  have hplace : m ≤ m' ↔ m.place ≤ m'.place := Iff.rfl
  rw [hplace]
  simp only [place, Prod.Lex.toLex_le_toLex, h, lt_self_iff_false, true_and, false_or]

theorem elapsedSince_ofDate (d : Date) : (ofDate d).elapsedSince d = 0 := by
  simp [elapsedSince, ofDate, Clock.midnight, Clock.secondOfDay, Clock.minuteOfDay]

theorem elapsedSince_eq {m : Moment} {d : Date} (h : m.date.year = d.year) :
    m.elapsedSince d = ((m.date.dayOfYear : Int) - d.dayOfYear) * 86400000000000
      + m.clock.secondOfDay * 1000000000 + m.clock.nano := by
  unfold elapsedSince Date.dayNumber
  rw [h]
  rw [add_sub_add_left_eq_sub]

/-- A leap second is the only one that lasts longer than until the next one begins. -/
theorem elapsedSince_mono {m m' : Moment} {d : Date} (hyear : m.date.year = d.year)
    (hyear' : m'.date.year = d.year) (hleap : m.clock.isLeap = false) (h : m ≤ m') :
    m.elapsedSince d ≤ m'.elapsedSince d := by
  have hsecond := m.clock.secondOfDay_lt
  rw [Clock.isLeap, decide_eq_false_iff_not] at hleap
  rw [le_iff (hyear.trans hyear'.symm)] at h
  rw [elapsedSince_eq hyear]
  rw [elapsedSince_eq hyear']
  omega

theorem elapsedSince_pos_of_isAfter {m : Moment} {d : Date} (h : m.isAfter d = true) :
    0 < m.elapsedSince d := by
  simp only [isAfter, Bool.or_eq_true, Bool.and_eq_true, decide_eq_true_eq, beq_iff_eq] at h
  unfold elapsedSince
  omega

def secondsSince (m : Moment) (d : Date) : Rat :=
  m.elapsedSince d / 1000000000

theorem secondsSince_ofDate (d : Date) : (ofDate d).secondsSince d = 0 := by
  unfold secondsSince
  rw [elapsedSince_ofDate]
  norm_num

theorem secondsSince_mono {m m' : Moment} {d : Date} (hyear : m.date.year = d.year)
    (hyear' : m'.date.year = d.year) (hleap : m.clock.isLeap = false) (h : m ≤ m') :
    m.secondsSince d ≤ m'.secondsSince d := by
  have hmono : (m.elapsedSince d : Rat) ≤ m'.elapsedSince d := by
    exact_mod_cast elapsedSince_mono hyear hyear' hleap h
  unfold secondsSince
  linarith

end Moment

namespace Holiday

/-- The share of a day that is left after some seconds of it, where only whole seconds count. -/
def shareLeft (s : Rat) : Rat :=
  1 - (⌊s⌋ : Rat) / 86400

def trapezoid (s : Rat) : Rat :=
  if 0 ≤ s ∧ s < 86400 then 1
  else if 86400 ≤ s ∧ s < 2 * 86400 then shareLeft (s - 86400)
  else if -86400 < s ∧ s < 0 then shareLeft (-s)
  else 0

theorem shareLeft_anti {s t : Rat} (h : s ≤ t) : shareLeft t ≤ shareLeft s := by
  have hfloor : (⌊s⌋ : Rat) ≤ ⌊t⌋ := by exact_mod_cast Int.floor_le_floor h
  unfold shareLeft
  linarith

theorem shareLeft_le_one {s : Rat} (h : 0 ≤ s) : shareLeft s ≤ 1 := by
  have hfloor : (0 : Rat) ≤ ⌊s⌋ := by exact_mod_cast Int.floor_nonneg.mpr h
  unfold shareLeft
  linarith

theorem one_le_shareLeft {s : Rat} (h : s ≤ 0) : 1 ≤ shareLeft s := by
  have hfloor : (⌊s⌋ : Rat) ≤ s := Int.floor_le s
  unfold shareLeft
  linarith

theorem shareLeft_nonneg {s : Rat} (h : s ≤ 86400) : 0 ≤ shareLeft s := by
  have hfloor : (⌊s⌋ : Rat) ≤ s := Int.floor_le s
  unfold shareLeft
  linarith

theorem shareLeft_nonpos {s : Rat} (h : 86400 ≤ s) : shareLeft s ≤ 0 := by
  have hfloor : (86400 : Rat) ≤ ⌊s⌋ := by
    have hle : (86400 : Int) ≤ ⌊s⌋ := by
      rw [Int.le_floor]
      exact_mod_cast h
    exact_mod_cast hle
  unfold shareLeft
  linarith

theorem trapezoid_of_nonneg {s : Rat} (h : 0 ≤ s) :
    trapezoid s = min 1 (max 0 (shareLeft (s - 86400))) := by
  unfold trapezoid
  split
  . next hday =>
    rw [min_eq_left]
    apply le_max_of_le_right
    apply one_le_shareLeft
    linarith
  . next hday =>
    have hlow : 86400 ≤ s := not_lt.mp fun hs => hday ⟨h, hs⟩
    have hone : shareLeft (s - 86400) ≤ 1 := by
      apply shareLeft_le_one
      linarith
    rw [min_eq_right (max_le zero_le_one hone)]
    split
    . next hnext =>
      rw [max_eq_right]
      apply shareLeft_nonneg
      linarith
    . next hnext =>
      have hhigh : 2 * 86400 ≤ s := not_lt.mp fun hs => hnext ⟨hlow, hs⟩
      rw [if_neg (fun hs => not_lt.mpr h hs.2)]
      rw [max_eq_left]
      apply shareLeft_nonpos
      linarith

theorem trapezoid_of_nonpos {s : Rat} (h : s ≤ 0) :
    trapezoid s = max 0 (shareLeft (-s)) := by
  unfold trapezoid
  split
  . next hday =>
    have hzero : s = 0 := le_antisymm h hday.1
    rw [hzero]
    norm_num [shareLeft]
  . next hday =>
    have hneg : s < 0 := lt_of_not_ge fun hs => hday ⟨hs, by linarith⟩
    rw [if_neg (fun hs => by linarith [hs.1])]
    split
    . next hbefore =>
      rw [max_eq_right]
      apply shareLeft_nonneg
      linarith
    . next hbefore =>
      have hlow : s ≤ -86400 := not_lt.mp fun hs => hbefore ⟨hs, hneg⟩
      rw [max_eq_left]
      apply shareLeft_nonpos
      linarith

theorem trapezoid_mono {s t : Rat} (h : s ≤ t) (ht : t ≤ 0) : trapezoid s ≤ trapezoid t := by
  rw [trapezoid_of_nonpos (h.trans ht)]
  rw [trapezoid_of_nonpos ht]
  apply max_le_max_left
  apply shareLeft_anti
  linarith

theorem trapezoid_anti {s t : Rat} (h : s ≤ t) (hs : 0 ≤ s) : trapezoid t ≤ trapezoid s := by
  rw [trapezoid_of_nonneg (hs.trans h)]
  rw [trapezoid_of_nonneg hs]
  apply min_le_min_left
  apply max_le_max_left
  apply shareLeft_anti
  linarith

section

variable (e : Int)

theorem floor_seconds : ⌊(e : Rat) / 1000000000⌋ = e / 1000000000 := by
  have hfloor := Rat.floor_intCast_div_natCast e 1000000000
  push_cast at hfloor
  exact hfloor

theorem le_seconds_iff (k : Int) : (k : Rat) ≤ e / 1000000000 ↔ k * 1000000000 ≤ e := by
  rw [← Int.le_floor]
  rw [floor_seconds]
  omega

theorem seconds_lt_iff (k : Int) : (e : Rat) / 1000000000 < k ↔ e < k * 1000000000 := by
  rw [← Int.floor_lt]
  rw [floor_seconds]
  omega

theorem shareLeft_seconds (k : Int) :
    shareLeft ((e : Rat) / 1000000000 - k) = remainingShare (e / 1000000000 - k) := by
  unfold shareLeft
  rw [Int.floor_sub_intCast]
  rw [floor_seconds]
  rw [remainingShare_eq]

theorem trapezoid_seconds : trapezoid ((e : Rat) / 1000000000) =
    if 0 ≤ e ∧ e < 86400000000000 then 1
    else if 86400000000000 ≤ e ∧ e < 172800000000000 then remainingShare (e / 1000000000 - 86400)
    else if -e < 86400000000000 ∧ e < 0 then remainingShare (-e / 1000000000)
    else 0 := by
  have hstart := le_seconds_iff e 0
  have hend := seconds_lt_iff e 0
  have hday := le_seconds_iff e 86400
  have hnext := seconds_lt_iff e 86400
  have hlast := seconds_lt_iff e 172800
  have hbefore := seconds_lt_iff (-e) 86400
  have hafter := shareLeft_seconds e 86400
  have hahead := shareLeft_seconds (-e) 0
  push_cast at hstart hend hday hnext hlast hbefore hafter hahead
  rw [neg_div] at hbefore hahead
  rw [neg_lt] at hbefore
  rw [sub_zero, sub_zero] at hahead
  have htwo : (2 * 86400 : Rat) = 172800 := by norm_num
  unfold trapezoid
  rw [htwo]
  simp only [hstart, hend, hday, hnext, hlast, hbefore, hafter, hahead]

variable {e}

theorem trapezoid_after (h : 0 < e) : trapezoid ((e : Rat) / 1000000000) =
    if (e.tdiv 1000000000).tdiv 86400 = 0 then 1
    else if (e.tdiv 1000000000).tdiv 86400 = 1 then remainingShare (e.tdiv 1000000000 - 86400)
    else 0 := by
  rw [trapezoid_seconds]
  rw [Int.tdiv_eq_ediv_of_nonneg (le_of_lt h)]
  rw [Int.tdiv_eq_ediv_of_nonneg (by omega)]
  rw [if_neg (show ¬(-e < 86400000000000 ∧ e < 0) by omega)]
  by_cases hday : e < 86400000000000
  . rw [if_pos (by omega)]
    rw [if_pos (by omega)]
  . rw [if_neg (by omega)]
    rw [if_neg (show ¬e / 1000000000 / 86400 = 0 by omega)]
    apply if_congr
    . omega
    . rfl
    . rfl

/-- A leap second in front of the midnight lasts beyond it, but not for a whole second. -/
theorem trapezoid_before (h : e < 1000000000) : trapezoid ((e : Rat) / 1000000000) =
    if ((-e).tdiv 1000000000).tdiv 86400 = 0 then remainingShare ((-e).tdiv 1000000000)
    else 0 := by
  rw [trapezoid_seconds]
  rw [tdiv_eq_ite (-e)]
  rw [if_neg (show ¬(86400000000000 ≤ e ∧ e < 172800000000000) by omega)]
  by_cases hlate : 0 ≤ e
  . have hzero : (if 0 ≤ -e then -e / 1000000000 else -(- -e / 1000000000)) = 0 := by omega
    rw [if_pos (by omega)]
    rw [hzero]
    norm_num [remainingShare_eq]
  . rw [if_neg (by omega)]
    rw [if_pos (show 0 ≤ -e by omega)]
    rw [Int.tdiv_eq_ediv_of_nonneg (by omega)]
    apply if_congr
    . omega
    . rfl
    . rfl

end

theorem proximity_eq_zero {h : Holiday} {m : Moment}
    (hd : Date.ofParts? m.date.year h.month h.day = none) : (h.proximity m : Rat) = 0 := by
  unfold proximity
  rw [hd]
  rfl

theorem proximity_eq_trapezoid {h : Holiday} {m : Moment} {d : Date}
    (hd : Date.ofParts? m.date.year h.month h.day = some d) :
    (h.proximity m : Rat) = trapezoid (m.secondsSince d) := by
  unfold proximity Moment.secondsSince
  rw [hd]
  simp only
  cases hafter : m.isAfter d with
  | true =>
    rw [if_pos rfl]
    rw [trapezoid_after (Moment.elapsedSince_pos_of_isAfter hafter)]
    rfl
  | false =>
    rw [if_neg nofun]
    rw [trapezoid_before (Moment.elapsedSince_lt_of_not_isAfter hafter)]
    rfl

/-- The closeness rises up to the midnight at which the holiday begins, and falls from there on. -/
theorem proximity_monotone {h : Holiday} {d : Date} {m m' : Moment}
    (hd : Date.ofParts? d.year h.month h.day = some d) (hyear : m.date.year = d.year)
    (hyear' : m'.date.year = d.year) (hleap : m.clock.isLeap = false)
    (hleap' : m'.clock.isLeap = false) (hle : m ≤ m') :
    (m' ≤ .ofDate d → (h.proximity m : Rat) ≤ h.proximity m') ∧
      (.ofDate d ≤ m → (h.proximity m' : Rat) ≤ h.proximity m) := by
  have hmono := Moment.secondsSince_mono hyear hyear' hleap hle
  rw [proximity_eq_trapezoid (hyear ▸ hd)]
  rw [proximity_eq_trapezoid (hyear' ▸ hd)]
  constructor
  . intro hlast
    have hzero := Moment.secondsSince_mono hyear' rfl hleap' hlast
    rw [Moment.secondsSince_ofDate] at hzero
    apply trapezoid_mono hmono hzero
  . intro hfirst
    have hzero : (Moment.ofDate d).secondsSince d ≤ m.secondsSince d := by
      apply Moment.secondsSince_mono rfl hyear rfl hfirst
    rw [Moment.secondsSince_ofDate] at hzero
    apply trapezoid_anti hmono hzero

/--
The closeness to a holiday is a trapezoid over the time since it begins, in every year that has it,
and zero in the other years. So it rises up to the holiday and falls from its beginning on.
-/
theorem proximity_isTrapezoid :
    (∀ (h : Holiday) (m : Moment), Date.ofParts? m.date.year h.month h.day = none →
      (h.proximity m : Rat) = 0) ∧
    (∀ (h : Holiday) (m : Moment) (d : Date), Date.ofParts? m.date.year h.month h.day = some d →
      (h.proximity m : Rat) = trapezoid (m.secondsSince d)) ∧
    (∀ (h : Holiday) (m : Moment), (0 : Rat) ≤ h.proximity m ∧ (h.proximity m : Rat) ≤ 1) ∧
    (∀ (h : Holiday) (d : Date) (m m' : Moment), Date.ofParts? d.year h.month h.day = some d →
      m.date.year = d.year → m'.date.year = d.year → m.clock.isLeap = false →
      m'.clock.isLeap = false → m ≤ m' →
      (m' ≤ .ofDate d → (h.proximity m : Rat) ≤ h.proximity m') ∧
      (.ofDate d ≤ m → (h.proximity m' : Rat) ≤ h.proximity m)) := by
  refine ⟨?_, ?_, ?_, ?_⟩
  . intro h m
    apply proximity_eq_zero
  . intro h m d
    apply proximity_eq_trapezoid
  . intro h m
    apply proximity_bounds
  . intro h d m m'
    apply proximity_monotone

/-- A leap second in front of the leap day belongs to it, and other years have no leap day. -/
theorem proximity_isTrapezoid_leapDay :
    let leapDay : Holiday := ⟨2, 29⟩
    let d : Date := ⟨2012, 2, 29, by decide, by decide, by decide, by decide⟩
    let eve : Date := ⟨2012, 2, 28, by decide, by decide, by decide, by decide⟩
    let noon : Moment := ⟨eve, ⟨12, 0, 0, 0, by decide, by decide, by decide, by decide⟩⟩
    let dusk : Moment := ⟨eve, ⟨18, 0, 0, 1, by decide, by decide, by decide, by decide⟩⟩
    let last : Moment :=
      ⟨eve, ⟨23, 59, 59, 1500000000, by decide, by decide, by decide, by decide⟩⟩
    let other : Moment := .ofDate ⟨2011, 3, 1, by decide, by decide, by decide, by decide⟩
    Date.ofParts? 2011 2 29 = none ∧ (leapDay.proximity other : Rat) = 0 ∧
      Date.ofParts? 2012 2 29 = some d ∧ last.secondsSince d = 1 / 2 ∧
      (leapDay.proximity last : Rat) = trapezoid (1 / 2) ∧ noon.clock.isLeap = false ∧
      dusk.clock.isLeap = false ∧ noon ≤ dusk ∧ dusk ≤ .ofDate d ∧
      (leapDay.proximity noon : Rat) ≤ leapDay.proximity dusk ∧
      Moment.ofDate d ≤ .ofDate d ∧ (leapDay.proximity (.ofDate d) : Rat) ≤ 1 := by
  intro leapDay d eve noon dusk last other
  obtain ⟨hzero, htrapezoid, hbounds, hmonotone⟩ := proximity_isTrapezoid
  have hother : Date.ofParts? 2011 2 29 = none := by decide
  have hday : Date.ofParts? 2012 2 29 = some d := by decide
  have hlast : last.secondsSince d = 1 / 2 := by decide +kernel
  have hdusk : noon ≤ dusk := by decide
  have hbefore : dusk ≤ .ofDate d := by decide
  have hself : Moment.ofDate d ≤ .ofDate d := by decide
  have hnoonLeap : noon.clock.isLeap = false := by decide
  have hduskLeap : dusk.clock.isLeap = false := by decide
  have hvalue := htrapezoid leapDay last d hday
  have hrise := hmonotone leapDay d noon dusk hday rfl rfl hnoonLeap hduskLeap hdusk
  rw [hlast] at hvalue
  refine ⟨hother, hzero leapDay other hother, hday, hlast, hvalue, hnoonLeap, hduskLeap, hdusk,
    hbefore, hrise.1 hbefore, hself, ?_⟩
  exact (hbounds leapDay (.ofDate d)).2

end Holiday

end CalendarCode
