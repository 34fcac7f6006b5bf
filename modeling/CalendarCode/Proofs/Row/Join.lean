import CalendarCode.Proofs.Row.Scan

/-!
This module contains how a circle gets its runs from those that its positions have on a line. If a
run ends at the last position and another one begins at the first, they are one run of the circle.
-/

namespace CalendarCode.Row

open Flaw

/-- Adds the first run to the last one if they touch around the end of a circle. -/
def joinGuarded (r : Row) (runs : List Run) : Except Flaw (List Run) :=
  if r.circular = true ∧ 1 < runs.length then do
    let first ← existing runs[0]?
    let i ← difference runs.length 1
    let last ← existing runs[i]?
    if first.start = 0 ∧ last.start + last.length = r.size then
      existing (runs.set i ⟨last.start, last.length + first.length⟩).tail?
    else
      return runs
  else
    return runs

def runsGuarded (r : Row) : Except Flaw (List Run) :=
  r.joinGuarded (r.scan r.size).reverse

variable {r : Row}

theorem joinGuarded_of_short {runs : List Run} (h : ¬(r.circular = true ∧ 1 < runs.length)) :
    r.joinGuarded runs = .ok runs :=
  if_neg h

theorem joinGuarded_cons_concat (h : r.circular = true) (first last : Run) (mid : List Run) :
    r.joinGuarded (first :: (mid ++ [last])) = .ok
      (if first.start = 0 ∧ last.start + last.length = r.size then
        mid ++ [⟨last.start, last.length + first.length⟩]
      else first :: (mid ++ [last])) := by
  have hfirst : existing (first :: (mid ++ [last]))[0]? = .ok first := rfl
  have hlast : existing (first :: (mid ++ [last]))[(first :: (mid ++ [last])).length - 1]?
      = .ok last := existing_eq (by simp)
  unfold joinGuarded
  rw [if_pos ⟨h, by simp⟩]
  rw [hfirst]
  rw [ok_bind]
  rw [difference_eq (by simp)]
  rw [ok_bind]
  rw [hlast]
  rw [ok_bind]
  split
  . exact existing_eq (by simp)
  . rfl

theorem active_add_size (h : r.circular = true) (p : Int) :
    r.Active (p + r.size) ↔ r.Active p :=
  active_congr h (by simp)

theorem mem_runs_straight {run : Run} : run ∈ r.straight.runs ↔ run.start < r.size ∧
    0 < run.length ∧ IsSegment r.straight.Active run.start (run.start + run.length - 1) :=
  mem_runs r.exists_gap_straight

theorem runs_straight_of_full (hsize : 0 < r.size) (hfull : ∀ p, r.Active p) :
    r.straight.runs = [⟨0, r.size⟩] := by
  apply eq_of_sorted
  . exact pairwise_start_runs r.exists_gap_straight
  . exact List.pairwise_singleton _ _
  . intro run
    rw [mem_runs_straight]
    rw [List.mem_singleton]
    constructor
    . rintro ⟨hlt, hpos, hsegment⟩
      have hlast := (active_straight.mp (hsegment.inside _ hsegment.le (le_refl _))).2.1
      have hbefore := hsegment.before
      have hbehind := hsegment.behind
      rw [active_straight] at hbefore hbehind
      simp only [hfull, and_true] at hbefore hbehind
      exact Run.eq_mk (by omega) (by omega)
    . rintro rfl
      refine ⟨hsize, hsize, by simp; omega, ?_, ?_, ?_⟩
      . intro p hp hle
        simp only at hp hle
        exact active_straight.mpr ⟨by omega, by omega, hfull p⟩
      . intro hbefore
        have := (active_straight.mp hbefore).1
        simp at this
      . intro hbehind
        have := (active_straight.mp hbehind).2.1
        simp at this

theorem exists_cons_concat {runs : List Run} (h : 1 < runs.length) :
    ∃ first mid last, runs = first :: (mid ++ [last]) := by
  obtain ⟨first, rest, rfl⟩ := List.exists_cons_of_length_pos (Nat.zero_lt_of_lt h)
  have hrest : rest ≠ [] := by
    rintro rfl
    simp at h
  exact ⟨first, rest.dropLast, rest.getLast hrest, by rw [List.dropLast_concat_getLast hrest]⟩

theorem one_lt_length_of_ne {runs : List Run} {a b : Run} (ha : a ∈ runs) (hb : b ∈ runs)
    (hne : a ≠ b) : 1 < runs.length := by
  cases runs with
  | nil => contradiction
  | cons first rest =>
    cases rest with
    | nil => exact absurd ((List.mem_singleton.mp ha).trans (List.mem_singleton.mp hb).symm) hne
    | cons second rest => simp

theorem isSegment_straight {first last : Int} (hsegment : IsSegment r.Active first last)
    (hnonneg : 0 ≤ first) (hlt : first < r.size) :
    IsSegment r.straight.Active first (min last (r.size - 1)) := by
  have hle := hsegment.le
  refine ⟨by omega, ?_, ?_, ?_⟩
  . intro p hp hpl
    exact active_straight.mpr ⟨by omega, by omega, hsegment.inside p hp (by omega)⟩
  . intro hbefore
    exact hsegment.before (active_straight.mp hbefore).2.2
  . intro hbehind
    obtain ⟨-, hinside, hactive⟩ := active_straight.mp hbehind
    rw [min_eq_left (by omega)] at hactive
    exact hsegment.behind hactive

theorem isSegment_of_straight {first last : Int} (hsegment : IsSegment r.straight.Active first last)
    (hpos : 0 < first) (hlt : last + 1 < r.size) : IsSegment r.Active first last := by
  have hle := hsegment.le
  refine ⟨hle, ?_, ?_, ?_⟩
  . intro p hp hpl
    exact (active_straight.mp (hsegment.inside p hp hpl)).2.2
  . intro hbefore
    exact hsegment.before (active_straight.mpr ⟨by omega, by omega, hbefore⟩)
  . intro hbehind
    exact hsegment.behind (active_straight.mpr ⟨by omega, hlt, hbehind⟩)

section

variable (h : r.circular = true)
include h

theorem isSegment_straight_iff (hends : ¬(r.Active 0 ∧ r.Active (-1))) {first last : Int}
    (hnonneg : 0 ≤ first) (hlt : first < r.size) :
    IsSegment r.straight.Active first last ↔ IsSegment r.Active first last := by
  constructor
  . intro hsegment
    have hle := hsegment.le
    have hinside : ∀ p, first ≤ p → p ≤ last → r.Active p := by
      intro p hp hle
      exact (active_straight.mp (hsegment.inside p hp hle)).2.2
    have hlast := (active_straight.mp (hsegment.inside last hsegment.le (le_refl _))).2.1
    refine ⟨hsegment.le, hinside, ?_, ?_⟩
    . intro hbefore
      by_cases hzero : first = 0
      . rw [hzero] at hbefore hinside
        exact hends ⟨hinside 0 (le_refl _) (by omega), hbefore⟩
      . exact hsegment.before (active_straight.mpr ⟨by omega, by omega, hbefore⟩)
    . intro hbehind
      by_cases hend : last + 1 = r.size
      . have hlast := hinside last hsegment.le (le_refl _)
        rw [show last = -1 + r.size by omega, active_add_size h] at hlast
        rw [show last + 1 = 0 + r.size by omega, active_add_size h] at hbehind
        exact hends ⟨hbehind, hlast⟩
      . exact hsegment.behind (active_straight.mpr ⟨by omega, by omega, hbehind⟩)
  . intro hsegment
    have hle := hsegment.le
    have hlast : last < r.size := by
      by_contra hge
      have hfirst := hsegment.inside (0 + r.size) (by omega) (by omega)
      have hbefore := hsegment.inside (-1 + r.size) (by omega) (by omega)
      rw [active_add_size h] at hfirst hbefore
      exact hends ⟨hfirst, hbefore⟩
    have hstraight := isSegment_straight hsegment hnonneg hlt
    rw [min_eq_left (by omega)] at hstraight
    exact hstraight

theorem runs_straight_of_not_touching (hgap : ∃ q, ¬r.Active q)
    (hends : ¬(r.Active 0 ∧ r.Active (-1))) : r.straight.runs = r.runs := by
  apply eq_of_sorted
  . exact pairwise_start_runs r.exists_gap_straight
  . exact pairwise_start_runs hgap
  . intro run
    rw [mem_runs_straight]
    rw [mem_runs hgap]
    constructor
    . rintro ⟨hlt, hpos, hsegment⟩
      rw [isSegment_straight_iff h hends (by omega) (by exact_mod_cast hlt)] at hsegment
      exact ⟨hlt, hpos, hsegment⟩
    . rintro ⟨hlt, hpos, hsegment⟩
      rw [← isSegment_straight_iff h hends (by omega) (by exact_mod_cast hlt)] at hsegment
      exact ⟨hlt, hpos, hsegment⟩

omit h in
theorem exists_run_at {p : Int} (hp : r.straight.Active p) : ∃ run ∈ r.straight.runs,
    (run.start : Int) ≤ p ∧ p < run.start + run.length := by
  obtain ⟨run, hrun, first, last, hfirst, hlast, -, hlength, hstart⟩ :=
    exists_run r.exists_gap_straight hp
  rw [if_neg (by simp [straight])] at hstart
  exact ⟨run, hrun, by omega, by omega⟩

theorem length_lt_size (hgap : ∃ q, ¬r.Active q) {run : Run} (hrun : run ∈ r.straight.runs) :
    run.length < r.size := by
  obtain ⟨hlt, -, hsegment⟩ := mem_runs_straight.mp hrun
  have hstop : run.start + run.length ≤ r.size := (fits_of_mem_runs hrun).stop_le rfl
  obtain ⟨q, hq⟩ := hgap
  have hnonneg := Int.emod_nonneg q (show (r.size : Int) ≠ 0 by omega)
  have hmod := Int.emod_lt_of_pos q (show (0 : Int) < r.size by omega)
  by_contra hge
  have hinside := active_straight.mp (hsegment.inside (q % r.size) (by omega) (by omega))
  apply hq
  rw [← active_congr h (Int.emod_emod_of_dvd q (Int.dvd_refl _))]
  exact hinside.2.2

end

/-- Whether the runs on a line begin at the first position and end at the last position of a row. -/
structure Touching (r : Row) (first last : Run) (mid : List Run) : Prop where
  runs_eq : r.straight.runs = first :: (mid ++ [last])
  start_eq : first.start = 0
  stop_eq : last.start + last.length = r.size

namespace Touching

variable {first last : Run} {mid : List Run} (t : r.Touching first last mid)
include t

theorem mem_first : first ∈ r.straight.runs := by
  simp [t.runs_eq]

theorem mem_last : last ∈ r.straight.runs := by
  simp [t.runs_eq]

theorem mem_mid {run : Run} (hrun : run ∈ mid) : run ∈ r.straight.runs := by
  simp [t.runs_eq, hrun]

theorem sorted : first.start < last.start ∧
    (∀ run ∈ mid, first.start < run.start ∧ run.start < last.start) ∧
    mid.Pairwise fun a b => a.start < b.start := by
  have hsorted := pairwise_start_runs r.exists_gap_straight
  rw [t.runs_eq] at hsorted
  rw [List.pairwise_cons, List.pairwise_append] at hsorted
  obtain ⟨hleast, hmid, -, hgreatest⟩ := hsorted
  refine ⟨hleast last (by simp), ?_, hmid⟩
  intro run hrun
  exact ⟨hleast run (by simp [hrun]), hgreatest run hrun last (List.mem_singleton_self last)⟩

variable (h : r.circular = true)
include h

theorem active_ends : r.Active 0 ∧ r.Active (-1) := by
  obtain ⟨-, -, hbegin⟩ := mem_runs_straight.mp t.mem_first
  obtain ⟨-, -, hend⟩ := mem_runs_straight.mp t.mem_last
  have hstop := t.stop_eq
  have hzero := active_straight.mp (hbegin.inside _ (le_refl _) hbegin.le)
  have hlast := active_straight.mp (hend.inside _ hend.le (le_refl _))
  rw [t.start_eq] at hzero
  rw [show (last.start : Int) + last.length - 1 = -1 + r.size by omega] at hlast
  rw [active_add_size h] at hlast
  exact ⟨hzero.2.2, hlast.2.2⟩

theorem isSegment_joined :
    IsSegment r.Active last.start (last.start + (last.length + first.length : Nat) - 1) := by
  obtain ⟨-, hpos, hbegin⟩ := mem_runs_straight.mp t.mem_first
  obtain ⟨-, -, hsegment⟩ := mem_runs_straight.mp t.mem_last
  have hzero := t.start_eq
  have hend := t.stop_eq
  have hlt := t.sorted.1
  have hsep := hbegin.last_succ_lt hsegment (by omega)
  refine ⟨by omega, ?_, ?_, ?_⟩
  . intro p hp hpl
    by_cases hinside : p < r.size
    . exact (active_straight.mp (hsegment.inside p hp (by omega))).2.2
    . rw [← sub_add_cancel p r.size]
      rw [active_add_size h]
      exact (active_straight.mp (hbegin.inside (p - r.size) (by omega) (by omega))).2.2
  . intro hbefore
    exact hsegment.before (active_straight.mpr ⟨by omega, by omega, hbefore⟩)
  . intro hbehind
    have heq : (last.start : Int) + (last.length + first.length : Nat) - 1 + 1
        = first.start + first.length - 1 + 1 + r.size := by omega
    rw [heq] at hbehind
    rw [active_add_size h] at hbehind
    exact hbegin.behind (active_straight.mpr ⟨by omega, by omega, hbehind⟩)

variable (hgap : ∃ q, ¬r.Active q)
include hgap

omit h in
theorem mem_runs_of_mid {run : Run} (hrun : run ∈ mid) : run ∈ r.runs := by
  obtain ⟨hlt, hpos, hsegment⟩ := mem_runs_straight.mp (t.mem_mid hrun)
  obtain ⟨-, -, hlast⟩ := mem_runs_straight.mp t.mem_last
  obtain ⟨hstart, hstop⟩ := t.sorted.2.1 run hrun
  have hend := t.stop_eq
  have hsep := hsegment.last_succ_lt hlast (by omega)
  rw [mem_runs hgap]
  exact ⟨hlt, hpos, isSegment_of_straight hsegment (by omega) (by omega)⟩

theorem joined_mem_runs : (⟨last.start, last.length + first.length⟩ : Run) ∈ r.runs := by
  obtain ⟨hlt, hpos, -⟩ := mem_runs_straight.mp t.mem_last
  rw [mem_runs hgap]
  exact ⟨hlt, Nat.add_pos_left hpos _, t.isSegment_joined h⟩

theorem mem_mid_of_stop_le {run : Run} (hrun : run ∈ r.runs)
    (hstop : run.start + run.length ≤ r.size) : run ∈ mid := by
  obtain ⟨hlt, hpos, hsegment⟩ := (mem_runs hgap).mp hrun
  obtain ⟨hzero, hbefore⟩ := t.active_ends h
  have hstraight := isSegment_straight hsegment (by omega) (by exact_mod_cast hlt)
  rw [min_eq_left (by omega)] at hstraight
  have hmem := mem_runs_straight.mpr ⟨hlt, hpos, hstraight⟩
  rw [t.runs_eq] at hmem
  rcases List.mem_cons.mp hmem with rfl | hmem
  . exfalso
    apply hsegment.before
    rw [t.start_eq]
    exact hbefore
  . rcases List.mem_append.mp hmem with hmid | hlast
    . exact hmid
    . exfalso
      have hend := t.stop_eq
      rw [← List.mem_singleton.mp hlast] at hend
      apply hsegment.behind
      rw [show (run.start : Int) + run.length - 1 + 1 = 0 + r.size by omega]
      rw [active_add_size h]
      exact hzero

theorem eq_joined_of_size_lt {run : Run} (hrun : run ∈ r.runs)
    (hstop : r.size < run.start + run.length) :
    run = ⟨last.start, last.length + first.length⟩ := by
  obtain ⟨hlt, hpos, hsegment⟩ := (mem_runs hgap).mp hrun
  obtain ⟨-, -, hlast⟩ := mem_runs_straight.mp t.mem_last
  have hend := t.stop_eq
  have hjoined := t.isSegment_joined h
  have hstraight := isSegment_straight hsegment (by omega) (by exact_mod_cast hlt)
  rw [min_eq_right (by omega)] at hstraight
  rw [show (last.start : Int) + last.length - 1 = r.size - 1 by omega] at hlast
  have hsame := hstraight.first_unique hlast
  rw [← hsame] at hjoined
  have hstop := hsegment.last_unique hjoined
  exact Run.eq_mk (by omega) (by omega)

theorem runs_eq_joined : mid ++ [⟨last.start, last.length + first.length⟩] = r.runs := by
  obtain ⟨-, hbetween, hmid⟩ := t.sorted
  apply eq_of_sorted
  . rw [List.pairwise_append]
    refine ⟨hmid, List.pairwise_singleton _ _, ?_⟩
    intro a ha b hb
    rw [List.mem_singleton.mp hb]
    exact (hbetween a ha).2
  . exact pairwise_start_runs hgap
  . intro run
    rw [List.mem_append, List.mem_singleton]
    constructor
    . rintro (hrun | rfl)
      . exact t.mem_runs_of_mid hgap hrun
      . exact t.joined_mem_runs h hgap
    . intro hrun
      by_cases hstop : run.start + run.length ≤ r.size
      . left
        exact t.mem_mid_of_stop_le h hgap hrun hstop
      . right
        exact t.eq_joined_of_size_lt h hgap hrun (by omega)

end Touching

theorem exists_touching (h : r.circular = true) (hgap : ∃ q, ¬r.Active q) (hfirst : r.Active 0)
    (hlast : r.Active (-1)) : ∃ first last mid, r.Touching first last mid := by
  have hsize := size_pos_of_active hfirst
  have hsorted := pairwise_start_runs r.exists_gap_straight
  rw [← active_add_size h] at hlast
  obtain ⟨a, ha, hastart, -⟩ := exists_run_at (active_straight.mpr ⟨le_refl 0, by omega, hfirst⟩)
  obtain ⟨b, hb, -, hbend⟩ := exists_run_at (active_straight.mpr ⟨by omega, by omega, hlast⟩)
  have hbstop : b.start + b.length ≤ r.size := (fits_of_mem_runs hb).stop_le rfl
  have hbsegment := (mem_runs_straight.mp hb).2.2
  have hne : a ≠ b := by
    rintro rfl
    have := length_lt_size h hgap ha
    omega
  obtain ⟨first, mid, last, hruns⟩ := exists_cons_concat (one_lt_length_of_ne ha hb hne)
  have hlsegment := (mem_runs_straight.mp (show last ∈ r.straight.runs by simp [hruns])).2.2
  rw [hruns] at ha hb hsorted
  rw [List.pairwise_cons, List.pairwise_append] at hsorted
  obtain ⟨hleast, -, -, hgreatest⟩ := hsorted
  have hafirst : a = first := by
    rcases List.mem_cons.mp ha with heq | hmem
    . exact heq
    . have := hleast a hmem
      omega
  have hblast : b = last := by
    rcases List.mem_cons.mp hb with heq | hmem
    . exact absurd (hafirst.trans heq.symm) hne
    . rcases List.mem_append.mp hmem with hmid | hmem
      . -- no run begins behind the last position
        have hlt := hgreatest b hmid last (List.mem_singleton_self last)
        have := hbsegment.last_succ_lt hlsegment (by omega)
        have := (active_straight.mp (hlsegment.inside _ (le_refl _) hlsegment.le)).2.1
        omega
      . exact List.mem_singleton.mp hmem
  refine ⟨first, last, mid, hruns, ?_, ?_⟩
  . rw [← hafirst]
    omega
  . rw [← hblast]
    omega

theorem runsGuarded_eq (r : Row) : r.runsGuarded = .ok r.runs := by
  unfold runsGuarded
  rw [reverse_scan]
  cases h : r.circular with
  | false =>
    have hstraight : r.straight = r := by
      unfold straight
      rw [← h]
    rw [joinGuarded_of_short (by simp [h])]
    rw [hstraight]
  | true =>
    rcases r.exists_gap_or_full with hgap | ⟨-, hfull⟩
    . by_cases hends : r.Active 0 ∧ r.Active (-1)
      . obtain ⟨first, last, mid, t⟩ := exists_touching h hgap hends.1 hends.2
        rw [t.runs_eq]
        rw [joinGuarded_cons_concat h]
        rw [if_pos ⟨t.start_eq, t.stop_eq⟩]
        rw [t.runs_eq_joined h hgap]
      . have hruns := runs_straight_of_not_touching h hgap hends
        rw [hruns]
        by_cases hlong : 1 < r.runs.length
        . obtain ⟨first, mid, last, heq⟩ := exists_cons_concat hlong
          rw [heq]
          rw [joinGuarded_cons_concat h]
          rw [if_neg]
          rintro ⟨hfirst, hlast⟩
          have t : r.Touching first last mid := ⟨hruns.trans heq, hfirst, hlast⟩
          exact hends (t.active_ends h)
        . exact joinGuarded_of_short fun hcircle => hlong hcircle.2
    . have hsize := size_pos_of_active (hfull 0)
      rw [runs_straight_of_full hsize hfull]
      rw [joinGuarded_of_short (by simp)]
      rw [runs_of_full h hsize hfull]

end CalendarCode.Row
