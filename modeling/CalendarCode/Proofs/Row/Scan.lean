import CalendarCode.Proofs.Guarded
import CalendarCode.Proofs.Row.Runs
import Mathlib.Data.List.Sort

/-!
This module contains a scan that finds the runs of a row from its first position to its last one.
The runs that it has found are the segments of the positions that it has passed.
-/

namespace CalendarCode

theorem Run.eq_mk {run : Run} {start length : Nat} (hstart : run.start = start)
    (hlength : run.length = length) : run = ⟨start, length⟩ := by
  rw [← hstart]
  rw [← hlength]

def Run.enter (runs : List Run) (p : Nat) : List Run :=
  match runs with
  | last :: others =>
    if last.start + last.length = p then ⟨last.start, last.length + 1⟩ :: others
    else ⟨p, 1⟩ :: last :: others
  | [] => [⟨p, 1⟩]

/-- What holds of the integers below a bound. -/
def Below (A : Int → Prop) (n : Nat) (p : Int) : Prop :=
  A p ∧ p < n

/-- Whether runs, the last of which comes first, are the segments below a bound. -/
structure IsScan (A : Int → Prop) (n : Nat) (runs : List Run) : Prop where
  mem_iff : ∀ run, run ∈ runs ↔
    0 < run.length ∧ IsSegment (Below A n) run.start (run.start + run.length - 1)
  sorted : runs.Pairwise fun a b => b.start < a.start

section

variable {A : Int → Prop} {n : Nat} {runs : List Run}

theorem IsSegment.of_below_lt {first last : Int} (h : IsSegment (Below A n) first last) :
    last < n := (h.inside last h.le (le_refl last)).2

theorem IsSegment.below_keep {first last : Int} (h : IsSegment (Below A n) first last)
    (hlt : last + 1 < n) : IsSegment (Below A (n + 1)) first last := by
  have hle := h.le
  refine ⟨hle, ?_, ?_, ?_⟩
  . intro p hp hpl
    exact ⟨(h.inside p hp hpl).1, by omega⟩
  . intro hbefore
    exact h.before ⟨hbefore.1, by omega⟩
  . intro hbehind
    exact h.behind ⟨hbehind.1, by omega⟩

theorem IsSegment.below_grow {first : Int} (h : IsSegment (Below A n) first (n - 1)) (hn : A n) :
    IsSegment (Below A (n + 1)) first n := by
  have hle := h.le
  refine ⟨by omega, ?_, ?_, ?_⟩
  . intro p hp hpl
    by_cases heq : p = n
    . rw [heq]
      exact ⟨hn, by omega⟩
    . exact ⟨(h.inside p hp (by omega)).1, by omega⟩
  . intro hbefore
    exact h.before ⟨hbefore.1, by omega⟩
  . intro hbehind
    have := hbehind.2
    omega

theorem isSegment_below_single (hn : A n) (hbefore : ¬A (n - 1)) :
    IsSegment (Below A (n + 1)) n n := by
  refine ⟨le_refl _, ?_, ?_, ?_⟩
  . intro p hp hpl
    have heq : p = n := by omega
    rw [heq]
    exact ⟨hn, by omega⟩
  . intro hp
    exact hbefore hp.1
  . intro hp
    have := hp.2
    omega

theorem IsSegment.below_cut {first last : Int} (h : IsSegment (Below A (n + 1)) first last)
    (hfirst : first < n) : IsSegment (Below A n) first (min last (n - 1)) := by
  have hle := h.le
  refine ⟨by omega, ?_, ?_, ?_⟩
  . intro p hp hpl
    exact ⟨(h.inside p hp (by omega)).1, by omega⟩
  . intro hbefore
    exact h.before ⟨hbefore.1, by omega⟩
  . intro hbehind
    have hlt := hbehind.2
    rw [min_eq_left (by omega)] at hbehind
    exact h.behind ⟨hbehind.1, by omega⟩

theorem isSegment_below_succ (hn : A n) {first last : Int} :
    IsSegment (Below A (n + 1)) first last ↔
      (last + 1 < n ∧ IsSegment (Below A n) first last) ∨
      (last = n ∧ IsSegment (Below A n) first (n - 1)) ∨
      (first = n ∧ last = n ∧ ¬A (n - 1)) := by
  constructor
  . intro h
    have hle := h.le
    have hlast := h.of_below_lt
    by_cases hend : last = n
    . right
      by_cases hstart : first = n
      . right
        refine ⟨hstart, hend, ?_⟩
        intro hbefore
        apply h.before
        rw [hstart]
        exact ⟨hbefore, by omega⟩
      . left
        have hcut := h.below_cut (by omega)
        rw [min_eq_right (by omega)] at hcut
        exact ⟨hend, hcut⟩
    . left
      have hcut := h.below_cut (by omega)
      rw [min_eq_left (by omega)] at hcut
      refine ⟨?_, hcut⟩
      by_contra hge
      apply h.behind
      rw [show last + 1 = n by omega]
      exact ⟨hn, by omega⟩
  . rintro (⟨hlast, h⟩ | ⟨rfl, h⟩ | ⟨rfl, rfl, hbefore⟩)
    . exact h.below_keep hlast
    . exact h.below_grow hn
    . exact isSegment_below_single hn hbefore

theorem below_succ_of_not (h : ¬A n) : Below A (n + 1) = Below A n := by
  funext p
  apply propext
  unfold Below
  constructor
  . rintro ⟨hp, hlt⟩
    refine ⟨hp, ?_⟩
    by_contra hge
    have heq : p = n := by omega
    rw [heq] at hp
    exact h hp
  . rintro ⟨hp, hlt⟩
    exact ⟨hp, by omega⟩

theorem IsScan.skip (hscan : IsScan A n runs) (h : ¬A n) : IsScan A (n + 1) runs where
  mem_iff := by
    rw [below_succ_of_not h]
    exact hscan.mem_iff
  sorted := hscan.sorted

theorem IsScan.stop_le (hscan : IsScan A n runs) {run : Run} (h : run ∈ runs) :
    run.start + run.length ≤ n := by
  obtain ⟨hpos, hsegment⟩ := (hscan.mem_iff run).mp h
  have := hsegment.of_below_lt
  omega

theorem IsScan.enter_new (hscan : IsScan A n runs) (h : A n) (hbefore : ¬A (n - 1)) :
    IsScan A (n + 1) (⟨n, 1⟩ :: runs) where
  mem_iff := by
    intro run
    rw [isSegment_below_succ h]
    rw [List.mem_cons]
    rw [hscan.mem_iff]
    constructor
    . rintro (rfl | ⟨hpos, hsegment⟩)
      . exact ⟨by simp, Or.inr (Or.inr ⟨rfl, by simp, hbefore⟩)⟩
      . have hlt := hsegment.of_below_lt
        have hne : (run.start : Int) + run.length - 1 ≠ n - 1 := by
          intro heq
          have hlast := hsegment.inside _ hsegment.le (le_refl _)
          rw [heq] at hlast
          exact hbefore hlast.1
        exact ⟨hpos, Or.inl ⟨by omega, hsegment⟩⟩
    . rintro ⟨hpos, ⟨-, hsegment⟩ | ⟨-, hsegment⟩ | ⟨hstart, hend, -⟩⟩
      . right
        exact ⟨hpos, hsegment⟩
      . exact absurd (hsegment.inside _ hsegment.le (le_refl _)).1 hbefore
      . left
        exact Run.eq_mk (by omega) (by omega)
  sorted := by
    rw [List.pairwise_cons]
    refine ⟨?_, hscan.sorted⟩
    intro run hrun
    have hpos := ((hscan.mem_iff run).mp hrun).1
    have := hscan.stop_le hrun
    simp only
    omega

theorem IsScan.enter_last {last : Run} {others : List Run} (hscan : IsScan A n (last :: others))
    (h : A n) (hlast : last.start + last.length = n) :
    IsScan A (n + 1) (⟨last.start, last.length + 1⟩ :: others) := by
  obtain ⟨hpos, hsegment⟩ := (hscan.mem_iff last).mp List.mem_cons_self
  have hend : (last.start : Int) + last.length - 1 = n - 1 := by omega
  have hsorted := hscan.sorted
  rw [hend] at hsegment
  rw [List.pairwise_cons] at hsorted
  constructor
  . intro run
    rw [isSegment_below_succ h]
    rw [List.mem_cons]
    constructor
    . rintro (rfl | hrun)
      . exact ⟨by simp, Or.inr (Or.inl ⟨by simp; omega, hsegment⟩)⟩
      . -- another run ends in front of the last one
        obtain ⟨hpos', hsegment'⟩ := (hscan.mem_iff run).mp (List.mem_cons_of_mem last hrun)
        have hlt := hsorted.1 run hrun
        have := hsegment'.last_succ_lt hsegment (by omega)
        have := hsegment.le
        exact ⟨hpos', Or.inl ⟨by omega, hsegment'⟩⟩
    . rintro ⟨hpos', ⟨hlt, hsegment'⟩ | ⟨hend', hsegment'⟩ | ⟨-, -, hbefore⟩⟩
      . rcases List.mem_cons.mp ((hscan.mem_iff run).mpr ⟨hpos', hsegment'⟩) with rfl | hrun
        . omega
        . right
          exact hrun
      . left
        have hstart := hsegment'.first_unique hsegment
        exact Run.eq_mk (by omega) (by omega)
      . exact absurd (hsegment.inside _ hsegment.le (le_refl _)).1 hbefore
  . rw [List.pairwise_cons]
    exact hsorted

theorem IsScan.exists_touching (hscan : IsScan A n runs) (hneg : ∀ p < 0, ¬A p)
    (hbefore : A (n - 1)) : ∃ run ∈ runs, run.start + run.length = n := by
  have hn : 0 < n := by
    by_contra hzero
    exact hneg _ (by omega) hbefore
  obtain ⟨first, hfirst, hinside, hedge⟩ := IsSegment.exists_first (A := Below A n) (p := n - 1)
    ⟨hbefore, by omega⟩ ⟨-1, by omega, fun h => hneg (-1) (by omega) h.1⟩
  have hnonneg : 0 ≤ first := by
    by_contra hlt
    exact hneg first (by omega) (hinside first (le_refl _) hfirst).1
  lift first to Nat using hnonneg
  refine ⟨⟨first, n - first⟩, ?_, by simp only; omega⟩
  rw [hscan.mem_iff]
  refine ⟨by simp only; omega, ?_⟩
  have hlast : ((⟨first, n - first⟩ : Run).start : Int) + (⟨first, n - first⟩ : Run).length - 1
      = n - 1 := by
    simp only
    omega
  rw [hlast]
  refine ⟨hfirst, hinside, hedge, ?_⟩
  intro hp
  have := hp.2
  omega

theorem IsScan.touches_iff {last : Run} {others : List Run} (hscan : IsScan A n (last :: others))
    (hneg : ∀ p < 0, ¬A p) : last.start + last.length = n ↔ A (n - 1) := by
  obtain ⟨hpos, hsegment⟩ := (hscan.mem_iff last).mp List.mem_cons_self
  constructor
  . intro hlast
    have hinside := hsegment.inside _ hsegment.le (le_refl _)
    rw [show (last.start : Int) + last.length - 1 = n - 1 by omega] at hinside
    exact hinside.1
  . intro hbefore
    obtain ⟨run, hrun, hend⟩ := hscan.exists_touching hneg hbefore
    rcases List.mem_cons.mp hrun with rfl | hother
    . exact hend
    . exfalso
      have hsegment' := ((hscan.mem_iff run).mp hrun).2
      have hlt := (List.pairwise_cons.mp hscan.sorted).1 run hother
      have := hsegment'.last_succ_lt hsegment (by omega)
      have := hsegment.of_below_lt
      omega

theorem IsScan.enter (hscan : IsScan A n runs) (hneg : ∀ p < 0, ¬A p) (h : A n) :
    IsScan A (n + 1) (Run.enter runs n) := by
  cases runs with
  | nil =>
    apply hscan.enter_new h
    intro hbefore
    obtain ⟨run, hrun, -⟩ := hscan.exists_touching hneg hbefore
    contradiction
  | cons last others =>
    have htouches := hscan.touches_iff hneg
    unfold Run.enter
    simp only
    split
    . next hlast => exact hscan.enter_last h hlast
    . next hlast => exact hscan.enter_new h fun hbefore => hlast (htouches.mpr hbefore)

end

theorem eq_of_sorted {as bs : List Run} (has : as.Pairwise fun a b => a.start < b.start)
    (hbs : bs.Pairwise fun a b => a.start < b.start) (h : ∀ run, run ∈ as ↔ run ∈ bs) :
    as = bs := by
  have : Std.Antisymm fun a b : Run => a.start < b.start := ⟨fun _ _ hab hba => by omega⟩
  have : Std.Irrefl fun a b : Run => a.start < b.start := ⟨fun a => Nat.lt_irrefl a.start⟩
  exact has.eq_of_mem_iff hbs h

namespace Row

/-- The runs of the first positions of a row by themselves, the last run first. -/
def scan (r : Row) (n : Nat) : List Run :=
  (List.range n).foldl (fun runs (p : Nat) => if r.isActive p then Run.enter runs p else runs) []

def straight (r : Row) : Row :=
  { r with circular := false }

variable {r : Row}

theorem active_straight {p : Int} : r.straight.Active p ↔ 0 ≤ p ∧ p < r.size ∧ r.Active p := by
  constructor
  . intro h
    have hbounds := bounds_of_active (r := r.straight) rfl h
    have hlt : p < r.size := hbounds.2
    lift p to Nat using hbounds.1
    refine ⟨by omega, hlt, ?_⟩
    rw [active_nat (by omega)]
    rw [active_nat (r := r.straight) (by omega)] at h
    exact h
  . rintro ⟨hnonneg, hlt, h⟩
    lift p to Nat using hnonneg
    have hlt : p < r.size := by omega
    rw [active_nat hlt] at h
    rw [active_nat (r := r.straight) hlt]
    exact h

theorem isScan_scan {n : Nat} (h : n ≤ r.size) : IsScan r.straight.Active n (r.scan n) := by
  have hneg : ∀ p < 0, ¬r.straight.Active p := fun p hp => not_active_of_neg rfl hp
  induction n with
  | zero =>
    constructor
    . intro run
      constructor
      . intro hrun
        contradiction
      . rintro ⟨-, hsegment⟩
        have hstart := (hsegment.inside _ (le_refl _) hsegment.le).2
        omega
    . exact List.Pairwise.nil
  | succ n ih =>
    unfold scan
    rw [List.range_succ]
    rw [List.foldl_append]
    rw [List.foldl_cons]
    rw [List.foldl_nil]
    have hscan := ih (by omega)
    have hiff : r.straight.Active n ↔ r.isActive n = true := by
      rw [active_straight]
      constructor
      . rintro ⟨-, -, hactive⟩
        exact hactive
      . intro hactive
        exact ⟨by omega, by omega, hactive⟩
    split
    . next hactive => exact hscan.enter hneg (hiff.mpr hactive)
    . next hactive => exact hscan.skip fun h => hactive (hiff.mp h)

theorem exists_gap_straight (r : Row) : ∃ q, ¬r.straight.Active q :=
  ⟨-1, not_active_of_neg rfl (by omega)⟩

theorem reverse_scan (r : Row) : (r.scan r.size).reverse = r.straight.runs := by
  have hscan := r.isScan_scan (le_refl r.size)
  have hsorted := pairwise_start_runs r.exists_gap_straight
  have hbelow : Below r.straight.Active r.size = r.straight.Active := by
    funext p
    apply propext
    constructor
    . rintro ⟨hp, -⟩
      exact hp
    . intro hp
      exact ⟨hp, (bounds_of_active (r := r.straight) rfl hp).2⟩
  apply eq_of_sorted
  . rw [List.pairwise_reverse]
    exact hscan.sorted
  . exact hsorted
  . intro run
    rw [List.mem_reverse]
    rw [hscan.mem_iff]
    rw [mem_runs r.exists_gap_straight]
    rw [hbelow]
    constructor
    . rintro ⟨hpos, hsegment⟩
      have hactive := hsegment.inside _ (le_refl _) hsegment.le
      have hbounds := bounds_of_active (r := r.straight) rfl hactive
      exact ⟨by omega, hpos, hsegment⟩
    . rintro ⟨-, hpos, hsegment⟩
      exact ⟨hpos, hsegment⟩

end Row

end CalendarCode
