import CalendarCode.Input
import CalendarCode.Proofs.Calendar
import CalendarCode.Proofs.Timestamp.Form
import Mathlib.Data.List.DropRight

/-!
This module contains that each form of a moment is read as the moment that it writes. The layouts
are tried in an order, so for each form the layouts before the one that it follows must refuse it.
-/

namespace CalendarCode

open Decimal Timestamp

namespace Timestamp

def Layout.take? (layout : Layout) (n : Numbers) (cs : List Char) :
    Option (Numbers × List Char) :=
  layout.foldlM (fun (n, cs) item => item.take? n cs) (n, cs)

def finish (r : Numbers × List Char) : Option Moment :=
  if r.2.isEmpty then r.1.moment? else none

@[simp]
theorem finish_nil (n : Numbers) : finish (n, []) = n.moment? := rfl

@[simp]
theorem finish_cons (n : Numbers) (c : Char) (rest : List Char) : finish (n, c :: rest) = none :=
  rfl

namespace Layout

theorem moment?_eq (layout : Layout) (cs : List Char) :
    layout.moment? cs = (layout.take? {} cs).bind finish := rfl

@[simp]
theorem take?_nil (n : Numbers) (cs : List Char) : take? [] n cs = some (n, cs) := rfl

theorem take?_cons (item : Item) (layout : Layout) (n : Numbers) (cs : List Char) :
    take? (item :: layout) n cs = (item.take? n cs).bind fun r => layout.take? r.1 r.2 := rfl

theorem take?_append (first last : Layout) (n : Numbers) (cs : List Char) :
    (first ++ last).take? n cs = (first.take? n cs).bind fun r => last.take? r.1 r.2 := by
  unfold take?
  rw [List.foldlM_append]
  rfl

theorem take?_literal_cons (c : Char) (layout : Layout) (n : Numbers) (rest : List Char) :
    take? (.literal c :: layout) n (c :: rest) = layout.take? n rest := by
  simp [take?_cons, Item.take?]

theorem take?_literal_ne {c d : Char} (h : c ≠ d) (layout : Layout) (n : Numbers)
    (rest : List Char) : take? (.literal c :: layout) n (d :: rest) = none := by
  simp [take?_cons, Item.take?, h]

theorem take?_literal_nil (c : Char) (layout : Layout) (n : Numbers) :
    take? (.literal c :: layout) n [] = none := rfl

end Layout

def Numbers.put (n : Numbers) (item : Item) (v : Nat) : Numbers :=
  match item with
  | .month => { n with month := v }
  | .day => { n with day := v }
  | .hour => { n with hour := v }
  | .minute => { n with minute := v }
  | .second => { n with second := v }
  | _ => n

namespace Layout

theorem take?_padded {item : Item} (hitem : item ∈ [.month, .day, .hour, .minute, .second])
    {v : Nat} (hv : v < 10 ^ 2) (layout : Layout) (n : Numbers) (rest : List Char) :
    take? (item :: layout) n (padded 2 v ++ rest) = layout.take? (n.put item v) rest := by
  have hnumber := number?_padded (k := 2) (by decide) hv rest
  rw [take?_cons]
  simp only [List.mem_cons, List.not_mem_nil, or_false] at hitem
  rcases hitem with rfl | rfl | rfl | rfl | rfl
  all_goals
    simp only [Item.take?]
    rw [hnumber]
    rfl

theorem take?_hour_eq_none {c : Char} (hblank : Text.isBlank c = false) (hdigit : c.isDigit = false)
    (layout : Layout) (n : Numbers) (rest : List Char) :
    take? (.hour :: layout) n (c :: rest) = none := by
  rw [take?_cons]
  simp only [Item.take?]
  rw [Text.trimLeft_cons hblank]
  rw [number?_eq_none hdigit]
  rfl

end Layout

def Numbers.of (d : Date) (hour minute second nano : Nat) : Numbers :=
  ⟨d.year, d.month, d.day, hour, minute, second, nano⟩

theorem Numbers.moment?_of (d : Date) (hour minute second nano : Nat) :
    (Numbers.of d hour minute second nano).moment? =
      if second = 60 then
        Moment.ofParts? d.year d.month d.day hour minute 59 (nano + 1000000000)
      else Moment.ofParts? d.year d.month d.day hour minute second nano := rfl

theorem take?_date {d : Date} (hfirst : 0 ≤ d.year) (hlast : d.year ≤ 9999) (rest : List Char) :
    date.take? {} (d.written ++ rest) = some (.of d 0 0 0 0, rest) := by
  have hmonth := d.month_bounds
  have hday := Nat.le_trans d.last_day (daysInMonth_le d.year d.month)
  have hyear : (d.year.toNat : Int) = d.year := by omega
  unfold Date.written date
  simp only [List.append_assoc, List.cons_append]
  rw [Layout.take?_cons]
  simp only [Item.take?]
  rw [signedYear?_padded (by omega)]
  rw [hyear]
  simp only [Option.map_some, Option.bind_some]
  rw [Layout.take?_literal_cons]
  rw [Layout.take?_padded (by decide) (by omega)]
  rw [Layout.take?_literal_cons]
  rw [Layout.take?_padded (by decide) (by omega)]
  rfl

theorem take?_clock (d : Date) (t : Clock) (rest : List Char) :
    clock.take? (.of d 0 0 0 0) (t.writtenToMinute ++ rest)
      = some (.of d t.hour t.minute 0 0, rest) := by
  have hhour := t.hour_lt
  have hminute := t.minute_lt
  unfold Clock.writtenToMinute clock
  simp only [List.append_assoc, List.cons_append]
  rw [Layout.take?_padded (by decide) (by omega)]
  rw [Layout.take?_literal_cons]
  rw [Layout.take?_padded (by decide) (by omega)]
  rfl

theorem take?_clockWithSeconds (d : Date) (t : Clock) (rest : List Char) :
    clockWithSeconds.take? (.of d 0 0 0 0) (t.writtenToSecond ++ rest)
      = some (.of d t.hour t.minute t.writtenSecond 0, rest) := by
  unfold Clock.writtenToSecond clockWithSeconds
  simp only [List.append_assoc, List.cons_append]
  rw [Layout.take?_append]
  rw [take?_clock]
  rw [Option.bind_some]
  rw [Layout.take?_literal_cons]
  rw [Layout.take?_padded (by decide) t.writtenSecond_lt]
  rfl

theorem take?_clockWithSeconds_eq_none (d : Date) (t : Clock) :
    clockWithSeconds.take? (.of d 0 0 0 0) t.writtenToMinute = none := by
  unfold clockWithSeconds
  rw [Layout.take?_append]
  rw [← List.append_nil t.writtenToMinute]
  rw [take?_clock]
  rw [Option.bind_some]
  exact Layout.take?_literal_nil _ _ _

theorem take?_clockWithFraction (d : Date) (t : Clock) {digits : Nat} (hpos : 1 ≤ digits)
    (hle : digits ≤ 9) (hdvd : 10 ^ (9 - digits) ∣ t.fraction) :
    clockWithFraction.take? (.of d 0 0 0 0) (t.written (.fraction digits))
      = some (.of d t.hour t.minute t.writtenSecond t.fraction, []) := by
  have hpow : 10 ^ 9 = 10 ^ digits * 10 ^ (9 - digits) := by
    rw [← Nat.pow_add]
    rw [Nat.add_sub_cancel' hle]
  have hlt : t.fraction / 10 ^ (9 - digits) < 10 ^ digits := by
    apply Nat.div_lt_of_lt_mul
    rw [Nat.mul_comm]
    rw [← hpow]
    exact t.fraction_lt
  unfold clockWithFraction Clock.written
  rw [Layout.take?_append]
  rw [take?_clockWithSeconds]
  rw [Option.bind_some]
  rw [Layout.take?_cons]
  simp only [Item.take?]
  rw [leading?_padded hpos]
  simp only [Option.map_some, Option.bind_some, Layout.take?_nil]
  rw [nanos_padded hle hlt]
  rw [Nat.div_mul_cancel hdvd]
  rfl

theorem moment?_of_clock (d : Date) {t : Clock} (h : t.IsWritable) :
    (Numbers.of d t.hour t.minute t.writtenSecond t.fraction).moment? = some ⟨d, t⟩ := by
  simp only [Clock.IsWritable, Clock.isLeap, decide_eq_true_eq] at h
  have hself := Moment.ofParts?_self d h
  have hsecond := t.second_lt
  have hnano := t.nano_lt
  rw [Numbers.moment?_of]
  unfold Clock.writtenSecond Clock.fraction
  simp only [Clock.isLeap, decide_eq_true_eq]
  split
  . next hleap =>
    rw [if_pos rfl]
    have hlast : 59 = t.second := (h hleap).symm
    have hfraction : t.nano % 1000000000 + 1000000000 = t.nano := by omega
    rw [hfraction]
    rw [hlast]
    exact hself
  . next hless =>
    rw [if_neg (Nat.ne_of_lt hsecond)]
    rw [Nat.mod_eq_of_lt (not_le.mp hless)]
    exact hself

def clocks : List Layout :=
  [clockWithSeconds, clockWithFraction, clock]

theorem moment?_date_append {d : Date} (hfirst : 0 ≤ d.year) (hlast : d.year ≤ 9999)
    (layout : Layout) (rest : List Char) :
    (date ++ layout).moment? (d.written ++ rest)
      = (layout.take? (.of d 0 0 0 0) rest).bind finish := by
  rw [Layout.moment?_eq]
  rw [Layout.take?_append]
  rw [take?_date hfirst hlast]
  rfl

theorem exists_hour_cons {time : Layout} (h : time ∈ clocks) : ∃ rest, time = .hour :: rest := by
  simp only [clocks, List.mem_cons, List.not_mem_nil, or_false] at h
  rcases h with rfl | rfl | rfl
  all_goals exact ⟨_, rfl⟩

theorem take?_blank_cons (time : Layout) (n : Numbers) (rest : List Char) :
    Layout.take? (.blank :: .hour :: time) n rest = Layout.take? (.hour :: time) n rest := by
  have hblanks : Text.trimLeft (Text.trimLeft rest) = Text.trimLeft rest := by
    exact List.dropWhile_idempotent Text.isBlank rest
  rw [Layout.take?_cons]
  simp only [Item.take?, Option.bind_some]
  rw [Layout.take?_cons]
  rw [Layout.take?_cons]
  simp only [Item.take?]
  rw [hblanks]

theorem findSome?_separated {d : Date} (hfirst : 0 ≤ d.year) (hlast : d.year ≤ 9999)
    (separator : Separator) (text : List Char) {time : Layout} (htime : time ∈ clocks) :
    [date ++ .blank :: time, date ++ .literal 'T' :: time].findSome?
        (fun layout => layout.moment? (d.written ++ separator.char :: text))
      = (time.take? (.of d 0 0 0 0) text).bind finish := by
  obtain ⟨time, rfl⟩ := exists_hour_cons htime
  simp only [List.findSome?_cons, List.findSome?_nil, moment?_date_append hfirst hlast]
  rw [take?_blank_cons]
  cases separator with
  | space =>
    have hskip : Layout.take? (.hour :: time) (.of d 0 0 0 0) (' ' :: text)
        = Layout.take? (.hour :: time) (.of d 0 0 0 0) text := by
      rw [Layout.take?_cons]
      rw [Layout.take?_cons]
      rfl
    simp only [Separator.char]
    rw [hskip]
    rw [Layout.take?_literal_ne (by decide)]
    cases (Layout.take? (.hour :: time) (.of d 0 0 0 0) text).bind finish with
    | none => rfl
    | some m => rfl
  | letter =>
    simp only [Separator.char]
    rw [Layout.take?_hour_eq_none (by decide) (by decide)]
    rw [Layout.take?_literal_cons]
    cases (Layout.take? (.hour :: time) (.of d 0 0 0 0) text).bind finish with
    | none => rfl
    | some m => rfl

theorem findSome?_flatMap {β γ δ : Type} {xs : List β} {f : β → List γ} {p : γ → Option δ}
    {q : β → Option δ} (h : ∀ x ∈ xs, (f x).findSome? p = q x) :
    (xs.flatMap f).findSome? p = xs.findSome? q := by
  induction xs with
  | nil => rfl
  | cons x xs ih =>
    rw [List.flatMap_cons]
    rw [List.findSome?_append]
    rw [h x (by simp)]
    rw [ih fun y hy => h y (by simp [hy])]
    rw [List.findSome?_cons]
    cases q x with
    | none => rfl
    | some y => rfl

theorem moment?_layouts {d : Date} (hfirst : 0 ≤ d.year) (hlast : d.year ≤ 9999)
    (separator : Separator) (text : List Char) :
    moment? layouts (d.written ++ separator.char :: text)
      = clocks.findSome? fun time => (time.take? (.of d 0 0 0 0) text).bind finish := by
  have hdate : date.moment? (d.written ++ separator.char :: text) = none := by
    rw [← List.append_nil date]
    rw [moment?_date_append hfirst hlast]
    rfl
  unfold moment? layouts
  rw [List.findSome?_append]
  rw [List.findSome?_singleton]
  rw [hdate]
  rw [Option.or_none]
  exact findSome?_flatMap fun _ htime => findSome?_separated hfirst hlast separator text htime

theorem findSome?_clocks (d : Date) {t : Clock} (ht : t.IsWritable) {precision : Precision}
    (h : precision.Keeps t) :
    (clocks.findSome? fun time => (time.take? (.of d 0 0 0 0) (t.written precision)).bind finish)
      = some ⟨d, t⟩ := by
  have hmoment := moment?_of_clock d ht
  simp only [clocks, List.findSome?_cons, List.findSome?_nil]
  cases precision with
  | minute =>
    -- the layouts with seconds miss the second colon
    obtain ⟨hsecond, hfraction⟩ := h
    have hclock := take?_clock d t []
    have hseconds := take?_clockWithSeconds_eq_none d t
    rw [List.append_nil] at hclock
    rw [hsecond, hfraction] at hmoment
    simp only [Clock.written, clockWithFraction, Layout.take?_append]
    rw [hseconds, hclock]
    simp only [Option.bind_none, Option.bind_some, finish_nil]
    rw [hmoment]
  | second =>
    have hfraction : t.fraction = 0 := h
    have hseconds := take?_clockWithSeconds d t []
    rw [List.append_nil] at hseconds
    rw [hfraction] at hmoment
    simp only [Clock.written]
    rw [hseconds]
    simp only [Option.bind_some, finish_nil]
    rw [hmoment]
  | fraction digits =>
    -- the layout without a fraction leaves the point and the digits
    obtain ⟨hpos, hle, hdvd⟩ := h
    have hfraction := take?_clockWithFraction d t hpos hle hdvd
    have hseconds := take?_clockWithSeconds d t
      ('.' :: padded digits (t.fraction / 10 ^ (9 - digits)))
    rw [hfraction]
    simp only [Clock.written]
    rw [hseconds]
    simp only [Option.bind_some, finish_nil, finish_cons]
    rw [hmoment]

theorem moment?_dateTimes {d : Date} (hfirst : 0 ≤ d.year) (hlast : d.year ≤ 9999)
    {layout : Layout} (h : layout ∈ dateTimes) : layout.moment? d.written = none := by
  simp only [dateTimes, List.mem_flatMap, List.mem_cons, List.not_mem_nil, or_false] at h
  obtain ⟨time, htime, hlayout⟩ := h
  obtain ⟨time, rfl⟩ := exists_hour_cons (by simpa [clocks] using htime)
  rw [← List.append_nil d.written]
  rcases hlayout with rfl | rfl
  . rw [moment?_date_append hfirst hlast]
    rfl
  . rw [moment?_date_append hfirst hlast]
    rfl

theorem moment?_written {m : Moment} (hfirst : 0 ≤ m.date.year) (hlast : m.date.year ≤ 9999)
    {form : Form} (h : form.Keeps m) : moment? layouts (m.written form) = some m := by
  cases form with
  | date =>
    obtain ⟨d, t⟩ := m
    have hclock : t = .midnight := h
    have hdate := moment?_date_append hfirst hlast [] []
    have htimes : dateTimes.findSome? (fun layout => layout.moment? d.written) = none := by
      rw [List.findSome?_eq_none_iff]
      exact fun layout hlayout => moment?_dateTimes hfirst hlast hlayout
    rw [List.append_nil, List.append_nil] at hdate
    unfold moment? layouts Moment.written
    simp only [List.findSome?_append, List.findSome?_singleton]
    rw [htimes, hdate]
    rw [hclock]
    exact moment?_of_clock d (t := .midnight) nofun
  | dateTime separator precision =>
    unfold Moment.written
    rw [moment?_layouts hfirst hlast]
    exact findSome?_clocks m.date h.1 h.2

end Timestamp

namespace Input

variable {α : Type}

theorem ofText_of_trim {text : String} {cs : List Char} (h : Text.trim text.toList = cs)
    (hne : cs ≠ []) {m : Moment} (hm : moment? layouts cs = some m) :
    (ofText text : Except (Error α) Input) = .ok (some m) := by
  obtain ⟨c, rest, rfl⟩ := List.exists_cons_of_ne_nil hne
  unfold ofText
  rw [h]
  simp only [hm]

/--
Every form of a moment that keeps all of it is read as this moment, whatever white space stands
around it. White space alone stands for missing data.
-/
theorem ofText_written :
    (∀ (m : Moment) (form : Form) (before after : List Char),
      0 ≤ m.date.year → m.date.year ≤ 9999 → form.Keeps m →
      (∀ c ∈ before, Text.isBlank c = true) → (∀ c ∈ after, Text.isBlank c = true) →
      (ofText (String.ofList (before ++ m.written form ++ after)) : Except (Error α) Input)
        = .ok (some m)) ∧
    ∀ text : String, (∀ c ∈ text.toList, Text.isBlank c = true) →
      (ofText text : Except (Error α) Input) = .ok none := by
  constructor
  . intro m form before after hfirst hlast hkeeps hbefore hafter
    have htrimmed := isTrimmed_written hkeeps
    have htrim := htrimmed.trim_append hbefore hafter
    rw [← String.toList_ofList (l := before ++ m.written form ++ after)] at htrim
    exact ofText_of_trim htrim htrimmed.ne_nil (moment?_written hfirst hlast hkeeps)
  . intro text hblank
    unfold ofText
    rw [Text.trim_of_all_blank hblank]

/-- The last quarter of a leap second begins after a second and three quarters. -/
theorem ofText_written_leap :
    let m : Moment := ⟨⟨2016, 12, 31, by decide, by decide, by decide, by decide⟩,
      ⟨23, 59, 59, 1750000000, by decide, by decide, by decide, by decide⟩⟩
    let form : Form := .dateTime .letter (.fraction 2)
    0 ≤ m.date.year ∧ m.date.year ≤ 9999 ∧ form.Keeps m ∧
    (∀ c ∈ ['\t', ' '], Text.isBlank c = true) ∧ (∀ c ∈ ['\n'], Text.isBlank c = true) ∧
    (ofText "\t 2016-12-31T23:59:60.75\n" : Except (Error Rat) Input) = .ok (some m) ∧
    (∀ c ∈ " \t".toList, Text.isBlank c = true) ∧
    (ofText " \t" : Except (Error Rat) Input) = .ok none := by
  intro m form
  have hkeeps : form.Keeps m := by decide
  have hbefore : ∀ c ∈ ['\t', ' '], Text.isBlank c = true := List.all_eq_true.mp (by decide)
  have hafter : ∀ c ∈ ['\n'], Text.isBlank c = true := List.all_eq_true.mp (by decide)
  have hblank : ∀ c ∈ " \t".toList, Text.isBlank c = true := List.all_eq_true.mp (by decide)
  obtain ⟨hwritten, hmissing⟩ := ofText_written (α := Rat)
  have hread := hwritten m form _ _ (by decide) (by decide) hkeeps hbefore hafter
  have htext : ['\t', ' '] ++ m.written form ++ ['\n']
      = "\t 2016-12-31T23:59:60.75\n".toList := by decide
  rw [htext, String.ofList_toList] at hread
  exact ⟨by decide, by decide, hkeeps, hbefore, hafter, hread, hblank,
    hmissing " \t" hblank⟩

end Input

end CalendarCode
