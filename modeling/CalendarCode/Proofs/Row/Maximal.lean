import CalendarCode.Proofs.Row.Guarded
import CalendarCode.Proofs.Row.Join
import CalendarCode.Proofs.Scalar.Encode
import Mathlib.Data.List.Pairwise

/-!
This module contains what the runs of a row are to its positions. Two runs have no position in
common, every active position belongs to one of them, and no run can be made longer. A circle full
of active positions has no place where a run has to begin, and is one run from the first position
on. Only one list of runs is like that, and a scan of the row finds it.
-/

namespace CalendarCode

/-- Whether a position belongs to a run. Behind the last of `n` positions comes the first one. -/
def Run.Covers (run : Run) (n p : Nat) : Prop :=
  ∃ d < run.length, p = (run.start + d) % n

theorem Run.IsApart.not_covers {circular : Bool} {n reach p : Nat} {a b : Run}
    (h : a.IsApart circular n reach b) (hb : b.Fits circular n) (hp : a.Covers n p) :
    ¬b.Covers n p := by
  rintro ⟨j, hj, hplace⟩
  obtain ⟨i, hi, rfl⟩ := hp
  have hahead := h.ahead
  have hturn : b.start + j < a.start + n := by
    cases circular with
    | false =>
      have := hb.stop_le rfl
      omega
    | true =>
      have := h.around rfl
      omega
  -- the second position lies behind the first one, but by less than a turn
  have hzero := Nat.sub_mod_eq_zero_of_mod_eq hplace.symm
  rw [Nat.mod_eq_of_lt (by omega)] at hzero
  omega

namespace Row

structure IsFull (r : Row) : Prop where
  circular : r.circular = true
  all_active : ∀ p : Nat, p < r.size → r.isActive p = true

structure ConsistsOf (r : Row) (runs : List Run) : Prop where
  fits : ∀ run ∈ runs, run.Fits r.circular r.size
  ascending : runs.Pairwise fun a b => a.start < b.start
  disjoint : runs.Pairwise fun a b => ∀ p, a.Covers r.size p → ¬b.Covers r.size p
  active_iff : ∀ p : Nat, p < r.size →
    (r.isActive p = true ↔ ∃ run ∈ runs, run.Covers r.size p)
  /-- No run can be made longer, neither in front nor behind. -/
  maximal : ¬r.IsFull → ∀ run ∈ runs, r.isActive ((run.start : Int) - 1) = false ∧
    r.isActive ((run.start + run.length : Nat) : Int) = false
  full : r.IsFull → runs = [⟨0, r.size⟩]
  /-- Only the last run goes past the last position, and only on a circle. -/
  last : ∀ run ∈ runs, r.size < run.start + run.length →
    r.circular = true ∧ runs.getLast? = some run

variable {r : Row} {runs : List Run} {run : Run} {p d : Nat}

theorem IsFull.active (h : r.IsFull) (hsize : 0 < r.size) (q : Int) : r.Active q := by
  obtain ⟨p, hp, hsame⟩ := exists_same_lt (q := q) hsize fun hc => by
    rw [h.circular] at hc
    contradiction
  rw [hsame.active_iff]
  exact h.all_active p hp

theorem exists_gap_of_not_isFull (h : ¬r.IsFull) : ∃ q, ¬r.Active q := by
  rcases r.exists_gap_or_full with hgap | ⟨hc, hfull⟩
  . exact hgap
  . exact absurd ⟨hc, fun p _ => hfull p⟩ h

theorem reaches_of_fits (h : run.Fits r.circular r.size) (hd : d < run.length) :
    r.Reaches run.start d := by
  unfold Reaches
  split
  . have := h.start_lt
    omega
  . next hc =>
    have := h.stop_le (by simpa using hc)
    omega

theorem active_of_mem_runs (hrun : run ∈ r.runs) (hd : d < run.length) :
    r.Active ((run.start + d : Nat) : Int) := by
  rcases r.exists_gap_or_full with hgap | ⟨-, hfull⟩
  . obtain ⟨-, -, hsegment⟩ := (mem_runs hgap).mp hrun
    exact hsegment.inside _ (by omega) (by omega)
  . exact hfull _

theorem exists_covers_of_active (hp : p < r.size) (hactive : r.Active p) :
    ∃ run ∈ r.runs, run.Covers r.size p := by
  rcases r.exists_gap_or_full with hgap | ⟨hc, hfull⟩
  . obtain ⟨run, hrun, first, last, hfirst, hlast, -, hlength, hstart⟩ := exists_run hgap hactive
    have hsame : r.Same first run.start := by
      unfold Same
      rw [hstart]
      split
      . exact (Int.emod_emod_of_dvd first (Int.dvd_refl _)).symm
      . rfl
    have hplace := hsame.add (p - first)
    rw [add_sub_cancel] at hplace
    rw [← Int.toNat_of_nonneg (a := p - first) (by omega)] at hplace
    have hreaches := reaches_of_fits (fits_of_mem_runs hrun) (d := (p - first).toNat) (by omega)
    exact ⟨run, hrun, (p - first).toNat, by omega, (hreaches.eq_mod_iff hp).mpr hplace⟩
  . rw [runs_of_full hc (by omega) hfull]
    refine ⟨⟨0, r.size⟩, List.mem_singleton_self _, p, hp, ?_⟩
    rw [Nat.zero_add]
    exact (Nat.mod_eq_of_lt hp).symm

theorem active_iff_exists_covers (hp : p < r.size) :
    r.Active p ↔ ∃ run ∈ r.runs, run.Covers r.size p := by
  constructor
  . exact exists_covers_of_active hp
  . rintro ⟨run, hrun, d, hd, hplace⟩
    rw [(reaches_of_fits (fits_of_mem_runs hrun) hd).eq_mod_iff hp] at hplace
    rw [hplace.active_iff]
    exact active_of_mem_runs hrun hd

theorem edges_of_mem_runs (hgap : ∃ q, ¬r.Active q) (hrun : run ∈ r.runs) :
    r.isActive ((run.start : Int) - 1) = false ∧
      r.isActive ((run.start + run.length : Nat) : Int) = false := by
  obtain ⟨-, -, hsegment⟩ := (mem_runs hgap).mp hrun
  have hbehind := hsegment.behind
  rw [sub_add_cancel] at hbehind
  exact ⟨Bool.eq_false_iff.mpr hsegment.before, Bool.eq_false_iff.mpr hbehind⟩

theorem fillHoles_zero (r : Row) : r.fillHoles 0 = r := by
  apply fillHoles_of_not_hasGap
  intro gap hpos hle
  omega

theorem pairwise_isApart (r : Row) : r.runs.Pairwise (Run.IsApart r.circular r.size 0) := by
  have hapart := r.pairwise_isApart_runs 0
  rw [fillHoles_zero] at hapart
  exact hapart

theorem getLast?_of_size_lt (hrun : run ∈ r.runs) (hlt : r.size < run.start + run.length) :
    r.runs.getLast? = some run := by
  have hapart := r.pairwise_isApart
  obtain ⟨others, behind, hruns⟩ := List.append_of_mem hrun
  cases behind with
  | nil =>
    rw [List.getLast?_eq_some_iff]
    exact ⟨others, hruns⟩
  | cons next behind =>
    -- the next run would not begin inside the row
    exfalso
    have hnext : next ∈ r.runs := by simp [hruns]
    have hstart := (fits_of_mem_runs hnext).start_lt
    rw [hruns] at hapart
    rw [List.pairwise_append, List.pairwise_cons] at hapart
    obtain ⟨-, ⟨hbehind, -⟩, -⟩ := hapart
    have := (hbehind next List.mem_cons_self).ahead
    omega

theorem consistsOf_runs (hsize : 0 < r.size) : r.ConsistsOf r.runs where
  fits _ hrun := fits_of_mem_runs hrun
  ascending := by
    apply r.pairwise_isApart.imp
    intro a b hapart
    have := hapart.ahead
    omega
  disjoint := by
    apply r.pairwise_isApart.imp_of_mem
    intro a b _ hb hapart p
    exact hapart.not_covers (fits_of_mem_runs hb)
  active_iff _ hp := active_iff_exists_covers hp
  maximal hfull _ hrun := edges_of_mem_runs (exists_gap_of_not_isFull hfull) hrun
  full hfull := runs_of_full hfull.circular hsize (hfull.active hsize)
  last _ hrun hlt := ⟨(fits_of_mem_runs hrun).circular_of_lt hlt, getLast?_of_size_lt hrun hlt⟩

namespace ConsistsOf

variable (h : r.ConsistsOf runs)
include h

theorem eq_of_covers {a b : Run} (ha : a ∈ runs) (hb : b ∈ runs) (hpa : a.Covers r.size p)
    (hpb : b.Covers r.size p) : a = b := by
  have hsymm : Std.Symm fun a b : Run => ∀ p, a.Covers r.size p → ¬b.Covers r.size p :=
    ⟨fun a b hab p hpb hpa => hab p hpa hpb⟩
  by_contra hne
  exact h.disjoint.forall ha hb hne p hpa hpb

theorem active_inside (hrun : run ∈ runs) (hd : d < run.length) :
    r.Active ((run.start + d : Nat) : Int) := by
  have hreaches := reaches_of_fits (h.fits run hrun) hd
  have hsame := (hreaches.eq_mod_iff hreaches.mod_lt).mp rfl
  rw [← hsame.active_iff]
  exact (h.active_iff _ hreaches.mod_lt).mpr ⟨run, hrun, d, hd, rfl⟩

theorem mem_runs_of_mem (hfull : ¬r.IsFull) (hrun : run ∈ runs) : run ∈ r.runs := by
  have hfits := h.fits run hrun
  have hpos := hfits.length_pos
  obtain ⟨hbefore, hbehind⟩ := h.maximal hfull run hrun
  rw [mem_runs (exists_gap_of_not_isFull hfull)]
  refine ⟨hfits.start_lt, hpos, by omega, ?_, Bool.eq_false_iff.mp hbefore, ?_⟩
  . intro q hstart hstop
    have hactive := h.active_inside hrun (d := (q - run.start).toNat) (by omega)
    rwa [show ((run.start + (q - run.start).toNat : Nat) : Int) = q by omega] at hactive
  . rw [sub_add_cancel]
    exact Bool.eq_false_iff.mp hbehind

theorem eq_runs (hsize : 0 < r.size) : runs = r.runs := by
  have hscanned := consistsOf_runs hsize
  by_cases hfull : r.IsFull
  . rw [h.full hfull]
    rw [hscanned.full hfull]
  . apply eq_of_sorted h.ascending hscanned.ascending
    intro run
    constructor
    . exact h.mem_runs_of_mem hfull
    . intro hrun
      -- the listed run that has the first position of this one is this one
      have hfits := hscanned.fits run hrun
      have hfirst : run.Covers r.size run.start :=
        ⟨0, hfits.length_pos, (Nat.mod_eq_of_lt hfits.start_lt).symm⟩
      have hactive := (hscanned.active_iff _ hfits.start_lt).mpr ⟨run, hrun, hfirst⟩
      obtain ⟨other, hother, hcovers⟩ := (h.active_iff _ hfits.start_lt).mp hactive
      have hmem := h.mem_runs_of_mem hfull hother
      rw [hscanned.eq_of_covers hrun hmem hfirst hcovers]
      exact hother

end ConsistsOf

end Row

/--
The careful scan of a row of a codec finds the runs that the row consists of. Every other list
misses or splits a run, adds one that is not there, or is out of order.
-/
theorem ScalarCodec.consistsOf_iff_eq_runs {α : Type} [Arith α] (k : ScalarCodec α)
    {bits : List Bool} (h : bits.length = k.size) :
    let r : Row := ⟨k.periodic, bits.toArray⟩
    r.runsGuarded = .ok r.runs ∧ ∀ runs, r.ConsistsOf runs ↔ runs = r.runs := by
  intro r
  have hsize : 0 < r.size := by
    rw [show r.size = k.size from h]
    exact k.size_pos
  refine ⟨r.runsGuarded_eq, ?_⟩
  intro runs
  constructor
  . intro hruns
    exact hruns.eq_runs hsize
  . rintro rfl
    exact Row.consistsOf_runs hsize

theorem ScalarCodec.consistsOf_iff_eq_runs_hours :
    let bits := (List.range 30).map fun p => decide (p ∈ [0, 1, 5, 6, 7, 28, 29])
    let r : Row := ⟨hours.periodic, bits.toArray⟩
    bits.length = hours.size ∧ r.runsGuarded = .ok [⟨5, 3⟩, ⟨28, 4⟩] ∧
      r.ConsistsOf [⟨5, 3⟩, ⟨28, 4⟩] ∧ ¬r.ConsistsOf [⟨0, 2⟩, ⟨5, 3⟩, ⟨28, 2⟩] := by
  intro bits r
  have hlength : bits.length = hours.size := by decide +kernel
  have hruns : r.runs = [⟨5, 3⟩, ⟨28, 4⟩] := by decide +kernel
  obtain ⟨hscan, hiff⟩ := consistsOf_iff_eq_runs hours hlength
  refine ⟨hlength, hscan.trans (congrArg Except.ok hruns), (hiff _).mpr hruns.symm, ?_⟩
  intro hsplit
  have heq : ([⟨0, 2⟩, ⟨5, 3⟩, ⟨28, 2⟩] : List Run) = [⟨5, 3⟩, ⟨28, 4⟩] :=
    ((hiff _).mp hsplit).trans hruns
  exact absurd heq (by decide)

end CalendarCode
