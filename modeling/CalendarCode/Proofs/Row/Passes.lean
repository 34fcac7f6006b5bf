import CalendarCode.Proofs.Row.Holes

/-!
This module contains passes that fill the holes of a row in place: one pass for the gaps of one
position, then one for those of two, and so on. To fill a gap makes no other gap longer or shorter,
so that it does not matter what earlier passes have done, and the passes make the same positions
active as filling all holes at once.
-/

namespace CalendarCode.Row

def hasGap (r : Row) (gap : Nat) (p : Int) : Bool :=
  r.isActive p && r.isActive (p + gap + 1) &&
    (List.range' 1 gap).all fun (d : Nat) => !r.isActive (p + d)

def fillGap (r : Row) (gap p : Nat) : Row :=
  if r.hasGap gap p then
    { r with
      bits := r.bits.mapIdx fun q active => active || inRun r.circular r.size p (gap + 2) q }
  else r

def fillGaps (r : Row) (gap : Nat) : Row :=
  let starts := if r.circular then r.size else r.size + 1 - (gap + 2)
  (List.range starts).foldl (fun r p => r.fillGap gap p) r

/-- Fills the gaps of one position, then those of two, and so on up to `reach`. -/
def fillPasses (r : Row) (reach : Nat) : Row :=
  (List.range' 1 reach).foldl fillGaps r

def Same (r : Row) (p q : Int) : Prop :=
  if r.circular then p % r.size = q % r.size else p = q

variable {r : Row} {gap reach p : Nat} {q : Int}

theorem same_of_circle (h : r.circular = true) {p q : Int} :
    r.Same p q ↔ p % r.size = q % r.size := by
  simp [Same, h]

theorem same_of_line (h : r.circular = false) {p q : Int} : r.Same p q ↔ p = q := by
  simp [Same, h]

theorem Same.refl (p : Int) : r.Same p p := by
  unfold Same
  split
  . rfl
  . rfl

theorem Same.symm {p q : Int} (h : r.Same p q) : r.Same q p := by
  cases hc : r.circular with
  | false =>
    rw [same_of_line hc] at h ⊢
    exact h.symm
  | true =>
    rw [same_of_circle hc] at h ⊢
    exact h.symm

theorem Same.add {p q : Int} (h : r.Same p q) (d : Int) : r.Same (p + d) (q + d) := by
  cases hc : r.circular with
  | false =>
    rw [same_of_line hc] at h ⊢
    rw [h]
  | true =>
    rw [same_of_circle hc] at h ⊢
    exact Int.emod_add_cancel_right d |>.mpr h

theorem Same.active_iff {p q : Int} (h : r.Same p q) : r.Active p ↔ r.Active q := by
  cases hc : r.circular with
  | false =>
    rw [same_of_line hc] at h
    rw [h]
  | true =>
    rw [same_of_circle hc] at h
    exact active_congr hc h

theorem Same.closed {p q : Int} (h : r.Same p q) (hp : Closed r.Active reach p) :
    Closed r.Active reach q := by
  cases hc : r.circular with
  | false =>
    rw [same_of_line hc] at h
    rwa [← h]
  | true =>
    rw [same_of_circle hc] at h
    exact closed_congr hc h hp

theorem exists_same_lt (hsize : 0 < r.size) (hline : r.circular = false → 0 ≤ q ∧ q < r.size) :
    ∃ p : Nat, p < r.size ∧ r.Same q p := by
  cases hc : r.circular with
  | false =>
    obtain ⟨hnonneg, hlt⟩ := hline hc
    refine ⟨q.toNat, by omega, ?_⟩
    rw [same_of_line hc]
    omega
  | true =>
    have hnonneg := Int.emod_nonneg q (show (r.size : Int) ≠ 0 by omega)
    have hlt := Int.emod_lt_of_pos q (show (0 : Int) < r.size by omega)
    refine ⟨(q % r.size).toNat, by omega, ?_⟩
    rw [same_of_circle hc]
    rw [Int.toNat_of_nonneg hnonneg]
    exact (Int.emod_emod_of_dvd q (Int.dvd_refl _)).symm

theorem hasGap_iff : r.hasGap gap q = true ↔ r.Active q ∧ r.Active (q + gap + 1) ∧
    ∀ d : Nat, 0 < d → d ≤ gap → ¬r.Active (q + d) := by
  simp only [hasGap, Bool.and_eq_true, List.all_eq_true, List.mem_range'_1, Active,
    Bool.not_eq_eq_eq_not, Bool.not_true, Bool.not_eq_true]
  constructor
  . rintro ⟨⟨hfirst, hlast⟩, hnone⟩
    exact ⟨hfirst, hlast, fun d hd hle => hnone d (by omega)⟩
  . rintro ⟨hfirst, hlast, hnone⟩
    exact ⟨⟨hfirst, hlast⟩, fun d hd => hnone d (by omega) (by omega)⟩

theorem hasGap_congr {p q : Int} (h : r.Same p q) (hp : r.hasGap gap p = true) :
    r.hasGap gap q = true := by
  rw [hasGap_iff] at hp ⊢
  obtain ⟨hfirst, hlast, hnone⟩ := hp
  refine ⟨h.active_iff.mp hfirst, ((h.add gap).add 1).active_iff.mp hlast, ?_⟩
  intro d hd hle
  rw [← (h.add d).active_iff]
  exact hnone d hd hle

theorem inRun_iff_exists_same {length : Nat} {q : Nat} (hq : q < r.size) :
    inRun r.circular r.size p length q = true ↔ ∃ d < length, r.Same q (p + d : Nat) := by
  cases hc : r.circular with
  | false =>
    simp only [inRun, Bool.false_eq_true, ↓reduceIte, Bool.and_eq_true, decide_eq_true_eq,
      same_of_line hc]
    constructor
    . rintro ⟨hle, hlt⟩
      exact ⟨q - p, by omega, by omega⟩
    . rintro ⟨d, hd, hsame⟩
      omega
  | true =>
    have hnonneg := Int.emod_nonneg ((q : Int) - p) (show (r.size : Int) ≠ 0 by omega)
    simp only [inRun, ↓reduceIte, Bool.and_eq_true, decide_eq_true_eq, same_of_circle hc]
    constructor
    . rintro ⟨-, hlt⟩
      refine ⟨(((q : Int) - p) % r.size).toNat, by omega, ?_⟩
      push_cast
      rw [Int.toNat_of_nonneg hnonneg]
      rw [Int.add_emod_emod]
      rw [add_sub_cancel]
    . rintro ⟨d, hd, hsame⟩
      have hdiff : ((q : Int) - p) % r.size = (d : Int) % r.size := by
        rw [← Int.emod_sub_emod]
        rw [hsame]
        rw [Int.emod_sub_emod]
        push_cast
        rw [add_sub_cancel_left]
      have hle := Nat.mod_le d r.size
      rw [← Int.natCast_mod] at hdiff
      omega

@[simp]
theorem size_fillGap : (r.fillGap gap p).size = r.size := by
  unfold fillGap
  split
  . simp [size]
  . rfl

@[simp]
theorem circular_fillGap : (r.fillGap gap p).circular = r.circular := by
  unfold fillGap
  split
  . rfl
  . rfl

theorem active_fillGap_nat {q : Nat} (hq : q < r.size) : (r.fillGap gap p).Active q
    ↔ r.Active q ∨ r.hasGap gap p = true ∧ ∃ d < gap + 2, r.Same q (p + d : Nat) := by
  have hq' : q < (r.fillGap gap p).size := by simpa using hq
  rw [active_nat hq']
  rw [active_nat hq]
  rw [← inRun_iff_exists_same hq]
  by_cases h : r.hasGap gap p = true
  . simp only [fillGap, h, ↓reduceIte, Array.getElem_mapIdx, Bool.or_eq_true, true_and]
    rfl
  . simp only [fillGap, h, Bool.false_eq_true, ↓reduceIte, false_and, or_false]
    rfl

theorem active_fillGap : (r.fillGap gap p).Active q
    ↔ r.Active q ∨ r.hasGap gap p = true ∧ ∃ d < gap + 2, r.Same q (p + d : Nat) := by
  apply active_iff_of_nat (r := r.fillGap gap p)
  . rintro q (hq | ⟨h, -⟩)
    . simpa using size_pos_of_active hq
    . simpa using size_pos_of_active (hasGap_iff.mp h).1
  . intro hc q hq
    rw [circular_fillGap] at hc
    rw [size_fillGap]
    rcases hq with hq | ⟨h, d, hd, hsame⟩
    . exact bounds_of_active hc hq
    . obtain ⟨hfirst, hlast, -⟩ := hasGap_iff.mp h
      have := bounds_of_active hc hfirst
      have := bounds_of_active hc hlast
      rw [same_of_line hc] at hsame
      omega
  . intro hc q q' hqq' hq
    rw [circular_fillGap] at hc
    rw [size_fillGap] at hqq'
    rcases hq with hq | ⟨h, d, hd, hsame⟩
    . left
      exact (active_congr hc hqq').mp hq
    . right
      rw [same_of_circle hc] at hsame
      refine ⟨h, d, hd, ?_⟩
      rw [same_of_circle hc]
      rw [← hqq']
      exact hsame
  . intro q hq
    rw [size_fillGap] at hq
    exact active_fillGap_nat hq

theorem closed_of_active_fillGap (hreach : gap ≤ reach) (h : (r.fillGap gap p).Active q) :
    Closed r.Active reach q := by
  rcases active_fillGap.mp h with hq | ⟨hgap, d, hd, hsame⟩
  . left
    exact hq
  . obtain ⟨hfirst, hlast, -⟩ := hasGap_iff.mp hgap
    apply hsame.symm.closed
    by_cases hzero : d = 0
    . left
      rw [hzero]
      exact hfirst
    . by_cases hend : d = gap + 1
      . left
        rw [hend]
        exact hlast
      . apply closed_of_gap (p + 1) (p + gap)
        . omega
        . omega
        . omega
        . rwa [add_sub_cancel_right]
        . exact hlast

theorem active_of_fillGap_succ (h : (r.fillGap gap p).Active q)
    (hsucc : ¬(r.fillGap gap p).Active (q + 1)) : r.Active q := by
  rcases active_fillGap.mp h with hq | ⟨hgap, d, hd, hsame⟩
  . exact hq
  . by_cases hend : d = gap + 1
    . rw [hsame.active_iff]
      rw [hend]
      exact (hasGap_iff.mp hgap).2.1
    . exfalso
      apply hsucc
      rw [active_fillGap]
      right
      exact ⟨hgap, d + 1, by omega, hsame.add 1⟩

theorem active_of_fillGap_pred (h : (r.fillGap gap p).Active (q + 1))
    (hpred : ¬(r.fillGap gap p).Active q) : r.Active (q + 1) := by
  rcases active_fillGap.mp h with hq | ⟨hgap, d, hd, hsame⟩
  . exact hq
  . cases d with
    | zero =>
      rw [hsame.active_iff]
      exact (hasGap_iff.mp hgap).1
    | succ d =>
      exfalso
      apply hpred
      rw [active_fillGap]
      right
      have hback := hsame.add (-1)
      rw [add_neg_cancel_right] at hback
      rw [show ((p + (d + 1) : Nat) : Int) + -1 = (p + d : Nat) by omega] at hback
      exact ⟨hgap, d, by omega, hback⟩

theorem hasGap_of_fillGap {gap' : Nat} (hpos : 0 < gap')
    (h : (r.fillGap gap p).hasGap gap' q = true) : r.hasGap gap' q = true := by
  rw [hasGap_iff] at h ⊢
  obtain ⟨hfirst, hlast, hnone⟩ := h
  refine ⟨?_, ?_, ?_⟩
  . apply active_of_fillGap_succ hfirst
    exact hnone 1 (by omega) (by omega)
  . apply active_of_fillGap_pred hlast
    exact hnone gap' hpos (le_refl _)
  . intro d hd hle hactive
    apply hnone d hd hle
    rw [active_fillGap]
    left
    exact hactive

theorem not_hasGap_fillGap (hpos : 0 < gap) : ¬(r.fillGap gap p).hasGap gap p = true := by
  intro h
  have hnone := (hasGap_iff.mp h).2.2 1 (by omega) (by omega)
  apply hnone
  rw [active_fillGap]
  right
  exact ⟨hasGap_of_fillGap hpos h, 1, by omega, Same.refl _⟩

structure FillsUp (r : Row) (reach : Nat) (r' : Row) : Prop where
  circular : r'.circular = r.circular
  size : r'.size = r.size
  holes : r'.fillHoles reach = r.fillHoles reach
  gaps : ∀ gap p, 0 < gap → r'.hasGap gap p = true → r.hasGap gap p = true

theorem FillsUp.refl (r : Row) (reach : Nat) : r.FillsUp reach r :=
  ⟨rfl, rfl, rfl, fun _ _ _ h => h⟩

theorem FillsUp.trans {r' r'' : Row} (h : r.FillsUp reach r') (h' : r'.FillsUp reach r'') :
    r.FillsUp reach r'' where
  circular := h'.circular.trans h.circular
  size := h'.size.trans h.size
  holes := h'.holes.trans h.holes
  gaps gap p hpos hgap := h.gaps gap p hpos (h'.gaps gap p hpos hgap)

theorem fillsUp_fillGap (r : Row) (p : Nat) (hreach : gap ≤ reach) :
    r.FillsUp reach (r.fillGap gap p) where
  circular := circular_fillGap
  size := size_fillGap
  holes := by
    apply eq_of_active
    . exact circular_fillGap
    . simp
    . intro q _
      rw [active_fillHoles]
      rw [active_fillHoles]
      apply closed_iff_of_between
      . intro q hq
        rw [active_fillGap]
        left
        exact hq
      . intro q hq
        exact closed_of_active_fillGap hreach hq
  gaps _ _ hpos h := hasGap_of_fillGap hpos h

theorem fillsUp_foldl (r : Row) (hpos : 0 < gap) (hreach : gap ≤ reach) (n : Nat) :
    r.FillsUp reach ((List.range n).foldl (fun r p => r.fillGap gap p) r) ∧
      ∀ p < n, ¬((List.range n).foldl (fun r p => r.fillGap gap p) r).hasGap gap p = true := by
  induction n with
  | zero =>
    refine ⟨FillsUp.refl r reach, ?_⟩
    intro p hp
    omega
  | succ n ih =>
    obtain ⟨hfills, hnone⟩ := ih
    rw [List.range_succ]
    rw [List.foldl_append]
    rw [List.foldl_cons]
    rw [List.foldl_nil]
    refine ⟨hfills.trans (fillsUp_fillGap _ n hreach), ?_⟩
    intro p hp hgap
    by_cases hlast : p = n
    . subst hlast
      exact not_hasGap_fillGap hpos hgap
    . exact hnone p (by omega) (hasGap_of_fillGap hpos hgap)

theorem fillGaps_eq (r : Row) (gap : Nat) : r.fillGaps gap
    = (List.range (if r.circular then r.size else r.size + 1 - (gap + 2))).foldl
      (fun r p => r.fillGap gap p) r := rfl

theorem fillsUp_fillGaps (r : Row) (hpos : 0 < gap) (hreach : gap ≤ reach) :
    r.FillsUp reach (r.fillGaps gap) ∧ ∀ q, ¬(r.fillGaps gap).hasGap gap q = true := by
  have hpass := r.fillsUp_foldl hpos hreach (if r.circular then r.size else r.size + 1 - (gap + 2))
  rw [← fillGaps_eq] at hpass
  obtain ⟨hfills, hnone⟩ := hpass
  refine ⟨hfills, ?_⟩
  intro q hgap
  obtain ⟨hfirst, hlast, -⟩ := hasGap_iff.mp hgap
  have hcircular := hfills.circular
  have hsize := hfills.size
  obtain ⟨p, hp, hsame⟩ := exists_same_lt (size_pos_of_active hfirst) fun hc =>
    bounds_of_active hc hfirst
  apply hnone p _ (hasGap_congr hsame hgap)
  split
  . omega
  . next hc =>
    -- on a line, the gap ends before the line does
    have hline : (r.fillGaps gap).circular = false := by
      rw [hcircular]
      simpa using hc
    have hright := bounds_of_active hline hlast
    rw [same_of_line hline] at hsame
    omega

theorem fillsUp_fillPasses (r : Row) {n : Nat} (hreach : n ≤ reach) :
    r.FillsUp reach (r.fillPasses n) ∧
      ∀ gap, 0 < gap → gap ≤ n → ∀ q, ¬(r.fillPasses n).hasGap gap q = true := by
  induction n with
  | zero =>
    refine ⟨FillsUp.refl r reach, ?_⟩
    intro gap hpos hle
    omega
  | succ n ih =>
    obtain ⟨hfills, hnone⟩ := ih (by omega)
    have hstep : r.fillPasses (n + 1) = (r.fillPasses n).fillGaps (n + 1) := by
      unfold fillPasses
      rw [List.range'_1_concat]
      rw [List.foldl_append]
      rw [Nat.add_comm 1 n]
      rfl
    obtain ⟨hpass, hlast⟩ := (r.fillPasses n).fillsUp_fillGaps (Nat.succ_pos n) hreach
    rw [hstep]
    refine ⟨hfills.trans hpass, ?_⟩
    intro gap hpos hle q hgap
    by_cases heq : gap = n + 1
    . subst heq
      exact hlast q hgap
    . exact hnone gap hpos (by omega) q (hpass.gaps gap q hpos hgap)

theorem fillHoles_of_not_hasGap
    (h : ∀ gap, 0 < gap → gap ≤ reach → ∀ q, ¬r.hasGap gap q = true) : r.fillHoles reach = r := by
  apply eq_of_active
  . rfl
  . simp
  . intro p _
    rw [active_fillHoles]
    constructor
    . intro hclosed
      -- the gap around the position would be short
      by_contra hp
      obtain ⟨first, last, hfirst, hlast, hshort, hgap⟩ := hclosed.exists_gap hp
      apply h (last + 1 - first).toNat (by omega) (by omega) (first - 1)
      rw [hasGap_iff]
      refine ⟨not_not.mp hgap.before, ?_, ?_⟩
      . rw [show first - 1 + ((last + 1 - first).toNat : Int) + 1 = last + 1 by omega]
        exact not_not.mp hgap.behind
      . intro d hd hle
        exact hgap.inside _ (by omega) (by omega)
    . intro hp
      left
      exact hp

theorem fillPasses_eq_fillHoles (r : Row) (reach : Nat) :
    r.fillPasses reach = r.fillHoles reach := by
  obtain ⟨hfills, hnone⟩ := r.fillsUp_fillPasses (le_refl reach)
  rw [← hfills.holes]
  exact (fillHoles_of_not_hasGap hnone).symm

end CalendarCode.Row
