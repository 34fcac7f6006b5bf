import CalendarCode.Proofs.Row.Holes
import Mathlib.Data.List.Rotate

/-!
This module contains the laws of the runs of a row. As long as a row has an inactive position or an
end, its runs are the segments of active integers, in ascending order of their starts. Once its
holes are filled, more positions than a hole may have lie between two of its runs.
-/

namespace CalendarCode

/-- Whether a run lies in a row of `n` positions. Only on a circle it may go past the last one. -/
structure Run.Fits (run : Run) (circular : Bool) (n : Nat) : Prop where
  start_lt : run.start < n
  length_pos : 0 < run.length
  length_le : run.length ≤ n
  stop_le : circular = false → run.start + run.length ≤ n

theorem Run.Fits.circular_of_lt {run : Run} {circular : Bool} {n : Nat} (h : run.Fits circular n)
    (hlt : n < run.start + run.length) : circular = true := by
  cases circular with
  | false =>
    have := h.stop_le rfl
    omega
  | true => rfl

/-- Whether more than `reach` positions lie between two runs, on a circle on both sides. -/
structure Run.IsApart (circular : Bool) (n reach : Nat) (a b : Run) : Prop where
  ahead : a.start + a.length + reach < b.start
  around : circular = true → b.start + b.length + reach < a.start + n

namespace Row

theorem length_takeWhile_id (bits : List Bool) :
    (bits.takeWhile id).length = bits.findIdx (! ·) := by
  rw [List.takeWhile_eq_take_findIdx_not]
  rw [List.length_take]
  exact Nat.min_eq_left List.findIdx_le_length

variable {r : Row}

def ahead (r : Row) (p : Nat) : List Bool :=
  if r.circular then r.bits.toList.rotate p else r.bits.toList.drop p

theorem lengthFrom_eq {p : Nat} (hp : p < r.size) : r.lengthFrom p = (r.ahead p).findIdx (! ·) := by
  rw [← length_takeWhile_id]
  unfold lengthFrom ahead
  split
  . rw [List.rotate_eq_drop_append_take]
    simp only [Array.length_toList]
    unfold size at hp
    omega
  . rfl

theorem length_ahead_of_circle (h : r.circular = true) (p : Nat) : (r.ahead p).length = r.size := by
  simp [ahead, h, size]

theorem length_ahead_of_line (h : r.circular = false) (p : Nat) :
    (r.ahead p).length = r.size - p := by
  simp [ahead, h, size]

theorem getElem_ahead {p i : Nat} (hi : i < (r.ahead p).length) :
    (r.ahead p)[i] = true ↔ r.Active ((p + i : Nat) : Int) := by
  cases hc : r.circular with
  | false =>
    have hlt := hi
    rw [length_ahead_of_line hc] at hlt
    rw [active_nat (by omega)]
    simp only [ahead, hc, Bool.false_eq_true, ↓reduceIte, List.getElem_drop, Array.getElem_toList]
    rfl
  | true =>
    have hlt := hi
    rw [length_ahead_of_circle hc] at hlt
    have hmod : (p + i) % r.size < r.size := Nat.mod_lt _ (by omega)
    rw [active_congr hc (q := (((p + i) % r.size : Nat) : Int))]
    . rw [active_nat hmod]
      simp only [ahead, hc, ↓reduceIte, List.getElem_rotate, Array.length_toList,
        Array.getElem_toList]
      rw [Nat.add_comm i p]
      rfl
    . push_cast
      rw [Int.emod_emod_of_dvd _ (Int.dvd_refl _)]

theorem active_of_lt_lengthFrom {p i : Nat} (hp : p < r.size) (hi : i < r.lengthFrom p) :
    r.Active ((p + i : Nat) : Int) := by
  rw [lengthFrom_eq hp] at hi
  have hlt := Nat.lt_of_lt_of_le hi List.findIdx_le_length
  rw [← getElem_ahead hlt]
  simpa using List.not_of_lt_findIdx hi

theorem lengthFrom_le {p : Nat} (hp : p < r.size) : r.lengthFrom p ≤ (r.ahead p).length := by
  rw [lengthFrom_eq hp]
  exact List.findIdx_le_length

theorem not_active_lengthFrom (hgap : ∃ q, ¬r.Active q) {p : Nat} (hp : p < r.size) :
    ¬r.Active ((p + r.lengthFrom p : Nat) : Int) := by
  by_cases hlt : r.lengthFrom p < (r.ahead p).length
  . rw [← getElem_ahead hlt]
    simp only [lengthFrom_eq hp] at hlt ⊢
    have hfalse := List.findIdx_getElem (w := hlt)
    simpa using hfalse
  . have hle := lengthFrom_le hp
    cases hc : r.circular with
    | false =>
      apply not_active_of_size_le hc
      rw [length_ahead_of_line hc] at hlt
      omega
    | true =>
      exfalso
      obtain ⟨q, hq⟩ := hgap
      apply hq
      rw [length_ahead_of_circle hc] at hlt
      have hnonneg := Int.emod_nonneg (q - p) (show (r.size : Int) ≠ 0 by omega)
      have hmod := Int.emod_lt_of_pos (q - p) (show (0 : Int) < r.size by omega)
      have hactive := active_of_lt_lengthFrom hp (i := ((q - p) % r.size).toNat) (by omega)
      rw [active_congr hc] at hactive
      . exact hactive
      . push_cast
        rw [Int.toNat_of_nonneg hnonneg]
        rw [Int.add_emod_emod]
        rw [add_sub_cancel]

theorem isSegment_congr (h : r.circular = true) {first last turned : Int}
    (hsegment : IsSegment r.Active first last) (hturn : turned % r.size = first % r.size) :
    IsSegment r.Active turned (turned + (last - first)) := by
  have hactive (d : Int) : r.Active (turned + d) ↔ r.Active (first + d) :=
    active_congr h (Int.emod_add_cancel_right d |>.mpr hturn)
  have hle := hsegment.le
  constructor
  . omega
  . intro p hp hlast
    have hinside := hsegment.inside (first + (p - turned)) (by omega) (by omega)
    rw [← hactive] at hinside
    rwa [add_sub_cancel] at hinside
  . rw [sub_eq_add_neg]
    rw [hactive]
    exact hsegment.before
  . rw [add_assoc]
    rw [hactive]
    rw [show first + (last - first + 1) = last + 1 by omega]
    exact hsegment.behind

section

variable (hgap : ∃ q, ¬r.Active q)
include hgap

theorem runs_eq :
    r.runs = ((List.range r.size).filter r.isStart).map fun p => ⟨p, r.lengthFrom p⟩ := by
  unfold runs
  rw [if_neg]
  intro hfull
  simp only [Bool.and_eq_true, List.all_eq_true, id_eq, decide_eq_true_eq] at hfull
  obtain ⟨⟨hc, hall⟩, hsize⟩ := hfull
  obtain ⟨q, hq⟩ := hgap
  apply hq
  unfold Active
  rw [isActive_of_circle hc]
  have hlt := Int.emod_lt_of_pos q (show (0 : Int) < r.size by omega)
  have hnonneg := Int.emod_nonneg q (show (r.size : Int) ≠ 0 by omega)
  have hbound : (q % r.size).toNat < r.bits.size := by
    unfold size at *
    omega
  rw [Array.getD_eq_getD_getElem?]
  rw [Array.getElem?_eq_getElem hbound]
  apply hall
  simp

theorem isSegment_of_isStart {p : Nat} (hp : p < r.size) (hstart : r.isStart p = true) :
    IsSegment r.Active p (p + r.lengthFrom p - 1) := by
  simp only [isStart, Bool.and_eq_true, Bool.not_eq_eq_eq_not, Bool.not_true] at hstart
  obtain ⟨hactive, hbefore⟩ := hstart
  have hpos : 0 < r.lengthFrom p := by
    by_contra hzero
    have hnot := not_active_lengthFrom hgap hp
    rw [show r.lengthFrom p = 0 by omega] at hnot
    exact hnot hactive
  constructor
  . omega
  . intro q hpq hq
    have hinside := active_of_lt_lengthFrom hp (i := (q - p).toNat) (by omega)
    rwa [show ((p + (q - p).toNat : Nat) : Int) = q by omega] at hinside
  . simp [Active, hbefore]
  . have hnot := not_active_lengthFrom hgap hp
    rwa [show (p : Int) + r.lengthFrom p - 1 + 1 = ((p + r.lengthFrom p : Nat) : Int) by omega]

theorem mem_runs {run : Run} : run ∈ r.runs ↔ run.start < r.size ∧ 0 < run.length ∧
    IsSegment r.Active run.start (run.start + run.length - 1) := by
  rw [runs_eq hgap]
  simp only [List.mem_map, List.mem_filter, List.mem_range]
  constructor
  . rintro ⟨p, ⟨hp, hstart⟩, rfl⟩
    have hsegment := isSegment_of_isStart hgap hp hstart
    have := hsegment.le
    exact ⟨hp, by simp; omega, hsegment⟩
  . rintro ⟨hp, hpos, hsegment⟩
    have hstart : r.isStart run.start = true := by
      have hactive := hsegment.inside run.start (by omega) (by omega)
      have hbefore := hsegment.before
      simp_all [isStart, Active]
    have hlast := hsegment.last_unique (isSegment_of_isStart hgap hp hstart)
    refine ⟨run.start, ⟨hp, hstart⟩, ?_⟩
    have hlength : r.lengthFrom run.start = run.length := by omega
    rw [hlength]

theorem pairwise_start_runs : r.runs.Pairwise fun a b => a.start < b.start := by
  rw [runs_eq hgap]
  rw [List.pairwise_map]
  apply List.Pairwise.filter
  exact List.pairwise_lt_range

theorem runs_eq_singleton {run : Run} (hstart : run.start < r.size) (hlength : 0 < run.length)
    (h : ∀ p, r.Active p ↔ run.start ≤ p ∧ p < run.start + run.length) : r.runs = [run] := by
  have hnodup : r.runs.Nodup := by
    apply (pairwise_start_runs hgap).imp
    rintro a b hlt rfl
    omega
  rw [← List.perm_singleton]
  rw [List.perm_ext_iff_of_nodup hnodup (List.nodup_singleton run)]
  intro other
  rw [mem_runs hgap]
  rw [List.mem_singleton]
  constructor
  . rintro ⟨-, hpos, hsegment⟩
    have hle := hsegment.le
    have hfirst := (h _).mp (hsegment.inside other.start (by omega) hle)
    have hlast := (h _).mp (hsegment.inside (other.start + other.length - 1) hle (by omega))
    have hbefore := hsegment.before
    have hbehind := hsegment.behind
    rw [h] at hbefore hbehind
    rw [Run.mk.injEq]
    omega
  . rintro rfl
    refine ⟨hstart, hlength, by omega, ?_, ?_, ?_⟩
    . intro p hp hlast
      rw [h]
      omega
    . rw [h]
      omega
    . rw [h]
      omega

theorem length_le_size {run : Run} (h : run ∈ r.runs) : run.length ≤ r.size := by
  rw [runs_eq hgap] at h
  simp only [List.mem_map, List.mem_filter, List.mem_range] at h
  obtain ⟨p, ⟨hp, -⟩, rfl⟩ := h
  have hle := lengthFrom_le hp
  cases hc : r.circular with
  | false =>
    rw [length_ahead_of_line hc] at hle
    exact Nat.le_trans hle (Nat.sub_le _ _)
  | true =>
    rw [length_ahead_of_circle hc] at hle
    exact hle

theorem exists_gap_before (p : Int) : ∃ q, q ≤ p ∧ ¬r.Active q := by
  obtain ⟨q, hq⟩ := hgap
  cases hc : r.circular with
  | false => exact ⟨min p (-1), by omega, not_active_of_neg hc (by omega)⟩
  | true =>
    by_cases hsize : r.size = 0
    . refine ⟨p, le_refl p, ?_⟩
      intro hactive
      have := size_pos_of_active hactive
      omega
    . have := Int.emod_nonneg (p - q) (show (r.size : Int) ≠ 0 by omega)
      refine ⟨p - (p - q) % r.size, by omega, ?_⟩
      rw [active_congr hc]
      . exact hq
      . rw [Int.sub_emod_emod]
        rw [sub_sub_cancel]

theorem exists_gap_behind (p : Int) : ∃ q, p ≤ q ∧ ¬r.Active q := by
  obtain ⟨q, hq⟩ := hgap
  cases hc : r.circular with
  | false => exact ⟨max p r.size, by omega, not_active_of_size_le hc (by omega)⟩
  | true =>
    by_cases hsize : r.size = 0
    . refine ⟨p, le_refl p, ?_⟩
      intro hactive
      have := size_pos_of_active hactive
      omega
    . have := Int.emod_nonneg (q - p) (show (r.size : Int) ≠ 0 by omega)
      refine ⟨p + (q - p) % r.size, by omega, ?_⟩
      rw [active_congr hc]
      . exact hq
      . rw [Int.add_emod_emod]
        rw [add_sub_cancel]

theorem exists_run {p : Int} (hp : r.Active p) : ∃ run ∈ r.runs, ∃ first last,
    first ≤ p ∧ p ≤ last ∧ IsSegment r.Active first last ∧ (run.length : Int) = last + 1 - first ∧
      (run.start : Int) = if r.circular then first % r.size else first := by
  have hsize := size_pos_of_active hp
  obtain ⟨first, last, hfirst, hlast, hsegment⟩ :=
    IsSegment.exists_around hp (exists_gap_before hgap p) (exists_gap_behind hgap p)
  have hle := hsegment.le
  have hactive := hsegment.inside first (by omega) (by omega)
  cases hc : r.circular with
  | false =>
    have hbounds := bounds_of_active hc hactive
    refine ⟨⟨first.toNat, (last + 1 - first).toNat⟩, ?_, first, last, hfirst, hlast, hsegment,
      by simp; omega, by simp; omega⟩
    rw [mem_runs hgap]
    refine ⟨by simp; omega, by simp; omega, ?_⟩
    simp only
    rw [show (first.toNat : Int) = first by omega]
    rw [show first + ((last + 1 - first).toNat : Int) - 1 = last by omega]
    exact hsegment
  | true =>
    have hnonneg := Int.emod_nonneg first (show (r.size : Int) ≠ 0 by omega)
    have hlt := Int.emod_lt_of_pos first (show (0 : Int) < r.size by omega)
    refine ⟨⟨(first % r.size).toNat, (last + 1 - first).toNat⟩, ?_, first, last, hfirst, hlast,
      hsegment, by simp; omega, by simp; omega⟩
    rw [mem_runs hgap]
    refine ⟨by simp; omega, by simp; omega, ?_⟩
    have hturn := isSegment_congr hc hsegment
      (Int.emod_emod_of_dvd first (Int.dvd_refl r.size))
    simp only
    rw [show ((first % r.size).toNat : Int) = first % r.size by omega]
    rw [show first % r.size + ((last + 1 - first).toNat : Int) - 1
      = first % r.size + (last - first) by omega]
    exact hturn

end

theorem runs_of_full (hc : r.circular = true) (hsize : 0 < r.size) (hfull : ∀ p, r.Active p) :
    r.runs = [⟨0, r.size⟩] := by
  unfold runs
  rw [if_pos]
  simp only [Bool.and_eq_true, List.all_eq_true, id_eq, decide_eq_true_eq]
  refine ⟨⟨hc, ?_⟩, hsize⟩
  intro b hb
  obtain ⟨i, hi, rfl⟩ := List.mem_iff_getElem.mp hb
  have hi : i < r.size := by simpa [size] using hi
  have hactive := hfull i
  rw [active_nat hi] at hactive
  rw [Array.getElem_toList]
  exact hactive

theorem exists_gap_or_full (r : Row) :
    (∃ q, ¬r.Active q) ∨ r.circular = true ∧ ∀ q, r.Active q := by
  cases hc : r.circular with
  | false =>
    left
    exact ⟨-1, not_active_of_neg hc (by omega)⟩
  | true =>
    by_cases hgap : ∃ q, ¬r.Active q
    . left
      exact hgap
    . right
      exact ⟨rfl, fun q => not_not.mp fun hq => hgap ⟨q, hq⟩⟩

theorem fits_of_mem_runs {run : Run} (h : run ∈ r.runs) : run.Fits r.circular r.size := by
  rcases r.exists_gap_or_full with hgap | ⟨hc, hfull⟩
  . obtain ⟨hstart, hlength, hsegment⟩ := (mem_runs hgap).mp h
    refine ⟨hstart, hlength, length_le_size hgap h, ?_⟩
    intro hc
    have hlast := hsegment.inside _ hsegment.le (le_refl _)
    have := bounds_of_active hc hlast
    omega
  . have hsize := size_pos_of_active (hfull 0)
    rw [runs_of_full hc hsize hfull] at h
    rw [List.mem_singleton] at h
    subst h
    refine ⟨hsize, hsize, le_refl _, ?_⟩
    rw [hc]
    intro
    contradiction

theorem isApart_of_mem_runs {reach : Nat} {a b : Run} (hgap : ∃ q, ¬(r.fillHoles reach).Active q)
    (ha : a ∈ (r.fillHoles reach).runs) (hb : b ∈ (r.fillHoles reach).runs)
    (hlt : a.start < b.start) : a.IsApart r.circular r.size reach b := by
  obtain ⟨-, -, hfirst⟩ := (mem_runs hgap).mp ha
  obtain ⟨hbound, -, hsecond⟩ := (mem_runs hgap).mp hb
  have hclosed : (r.fillHoles reach).Active = Closed r.Active reach := by
    funext p
    exact propext (active_fillHoles p)
  rw [size_fillHoles] at hbound
  constructor
  . rw [hclosed] at hfirst hsecond
    have := hfirst.add_reach_lt hsecond (by omega)
    omega
  . intro hc
    -- on a circle the first run follows the second one after a turn
    have hturn := isSegment_congr (r := r.fillHoles reach) hc hfirst
      (show ((a.start : Int) + r.size) % (r.fillHoles reach).size = a.start % _ by simp)
    rw [hclosed] at hsecond hturn
    have := hsecond.add_reach_lt hturn (by omega)
    omega

theorem pairwise_isApart_runs (r : Row) (reach : Nat) :
    (r.fillHoles reach).runs.Pairwise (Run.IsApart r.circular r.size reach) := by
  rcases (r.fillHoles reach).exists_gap_or_full with hgap | ⟨hc, hfull⟩
  . apply (pairwise_start_runs hgap).imp_of_mem
    intro a b ha hb hlt
    exact isApart_of_mem_runs hgap ha hb hlt
  . rw [runs_of_full hc (size_pos_of_active (hfull 0)) hfull]
    exact List.pairwise_singleton _ _

end Row

end CalendarCode
