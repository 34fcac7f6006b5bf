import CalendarCode.Code.Row
import CalendarCode.Proofs.Row.Segment

/-!
This module contains the laws of the holes of a row. On all integers, the active positions of a
circle repeat themselves, and beyond the ends of a line there are none. Seen that way, the holes are
the short gaps of the integers.
-/

namespace CalendarCode.Row

def Active (r : Row) (p : Int) : Prop :=
  r.isActive p = true

variable {r : Row}

theorem isActive_of_circle (h : r.circular = true) (p : Int) :
    r.isActive p = r.bits.getD (p % r.size).toNat false := by
  simp [isActive, h]

theorem isActive_of_line (h : r.circular = false) (p : Int) :
    r.isActive p = (decide (0 ≤ p) && r.bits.getD p.toNat false) := by
  simp only [isActive, h, Bool.false_eq_true, ↓reduceIte]
  split
  . next hp => simp [hp]
  . next hp => simp [hp]

theorem active_congr (h : r.circular = true) {p q : Int} (hpq : p % r.size = q % r.size) :
    r.Active p ↔ r.Active q := by
  unfold Active
  rw [isActive_of_circle h]
  rw [isActive_of_circle h]
  rw [hpq]

theorem not_active_of_neg (h : r.circular = false) {p : Int} (hp : p < 0) : ¬r.Active p := by
  unfold Active
  rw [isActive_of_line h]
  simp
  omega

theorem not_active_of_size_le (h : r.circular = false) {p : Int} (hp : (r.size : Int) ≤ p) :
    ¬r.Active p := by
  unfold Active
  rw [isActive_of_line h]
  have : r.bits.size ≤ p.toNat := by
    unfold size at hp
    omega
  simp [this]

theorem size_pos_of_active {p : Int} (h : r.Active p) : 0 < r.size := by
  by_contra hsize
  have hempty : r.bits = #[] := by
    unfold size at hsize
    apply Array.eq_empty_of_size_eq_zero
    omega
  unfold Active isActive at h
  simp [hempty] at h

theorem bounds_of_active (h : r.circular = false) {p : Int} (hp : r.Active p) :
    0 ≤ p ∧ p < r.size := by
  constructor
  . by_contra hneg
    exact not_active_of_neg h (by omega) hp
  . by_contra hle
    exact not_active_of_size_le h (by omega) hp

theorem active_nat {p : Nat} (hp : p < r.size) : r.Active p ↔ r.bits[p] = true := by
  unfold Active
  rw [isActive_nat r hp]

theorem active_iff_of_nat {P : Int → Prop} (hsize : ∀ p, P p → 0 < r.size)
    (hbounds : r.circular = false → ∀ p, P p → 0 ≤ p ∧ p < r.size)
    (hcongr : r.circular = true → ∀ p q : Int, p % r.size = q % r.size → P p → P q)
    (h : ∀ p : Nat, p < r.size → (r.Active p ↔ P p)) (p : Int) : r.Active p ↔ P p := by
  by_cases hempty : r.size = 0
  . constructor
    . intro hp
      have := size_pos_of_active hp
      omega
    . intro hp
      have := hsize p hp
      omega
  . cases hc : r.circular with
    | false =>
      by_cases hp : 0 ≤ p ∧ p < r.size
      . lift p to Nat using hp.1
        exact h p (by omega)
      . constructor
        . intro hactive
          exact absurd (bounds_of_active hc hactive) hp
        . intro hholds
          exact absurd (hbounds hc p hholds) hp
    | true =>
      have hnonneg := Int.emod_nonneg p (show (r.size : Int) ≠ 0 by omega)
      have hlt := Int.emod_lt_of_pos p (show (0 : Int) < r.size by omega)
      have hmod : p % r.size % r.size = p % r.size := Int.emod_emod_of_dvd p (Int.dvd_refl _)
      have hnat := h (p % r.size).toNat (by omega)
      rw [Int.toNat_of_nonneg hnonneg] at hnat
      rw [← active_congr hc hmod]
      rw [hnat]
      constructor
      . exact hcongr hc _ _ hmod
      . exact hcongr hc _ _ hmod.symm

theorem eq_of_active {r r' : Row} (hcircular : r.circular = r'.circular)
    (hsize : r.size = r'.size) (h : ∀ p : Nat, p < r.size → (r.Active p ↔ r'.Active p)) :
    r = r' := by
  have hbits : r.bits = r'.bits := by
    apply Array.ext hsize
    intro p hp hp'
    have hiff := h p hp
    rw [active_nat hp] at hiff
    rw [active_nat hp'] at hiff
    exact Bool.eq_iff_iff.mpr hiff
  cases r
  cases r'
  simp_all

section

variable {reach : Nat}

theorem of_find?_range' {f : Nat → Bool} {d : Nat} (h : (List.range' 1 reach).find? f = some d) :
    f d = true ∧ 1 ≤ d := by
  rw [List.find?_range'_eq_some] at h
  obtain ⟨hd, hmem, -⟩ := h
  rw [List.mem_range'_1] at hmem
  exact ⟨hd, hmem.1⟩

theorem exists_find?_range' (reach : Nat) {f : Nat → Bool} {d : Nat} (hd : 1 ≤ d)
    (hreach : d ≤ reach) (h : f d = true) : ∃ a ≤ d, (List.range' 1 reach).find? f = some a := by
  cases hfind : (List.range' 1 reach).find? f with
  | none =>
    rw [List.find?_eq_none] at hfind
    exact absurd h (hfind d (List.mem_range'_1.mpr (by omega)))
  | some a =>
    rw [List.find?_range'_eq_some] at hfind
    refine ⟨a, ?_, rfl⟩
    by_contra hlt
    have hnone := hfind.2.2 d hd (by omega)
    rw [h] at hnone
    contradiction

theorem inHole_iff {p : Nat} : r.inHole reach p = true
    ↔ ∃ a b : Int, 0 < a ∧ 0 < b ∧ a + b ≤ reach + 1 ∧ r.Active (p - a) ∧ r.Active (p + b) := by
  constructor
  . intro h
    unfold inHole at h
    split at h
    . next a b hback hon =>
      obtain ⟨hleft, ha⟩ := of_find?_range' hback
      obtain ⟨hright, hb⟩ := of_find?_range' hon
      simp only [decide_eq_true_eq] at h
      exact ⟨a, b, by omega, by omega, by omega, hleft, hright⟩
    . contradiction
  . rintro ⟨a, b, ha, hb, hab, hleft, hright⟩
    lift a to Nat using by omega
    lift b to Nat using by omega
    -- the closest active positions are not farther away than these two
    obtain ⟨a', ha', hback⟩ := exists_find?_range' reach
      (f := fun d => r.isActive (p - d)) (by omega) (by omega) hleft
    obtain ⟨b', hb', hon⟩ := exists_find?_range' reach
      (f := fun d => r.isActive (p + d)) (by omega) (by omega) hright
    simp only [inHole, distanceBack?, distanceOn?, hback, hon, decide_eq_true_eq]
    omega

theorem active_fillHoles_nat {p : Nat} (hp : p < r.size) :
    (r.fillHoles reach).Active p ↔ Closed r.Active reach p := by
  have hp' : p < (r.fillHoles reach).size := by simpa using hp
  rw [active_nat hp']
  unfold Closed
  rw [active_nat hp]
  rw [← inHole_iff]
  simp only [fillHoles, Array.getElem_mapIdx, Bool.or_eq_true]
  rfl

theorem closed_congr (h : r.circular = true) {p q : Int} (hpq : p % r.size = q % r.size) :
    Closed r.Active reach p → Closed r.Active reach q := by
  rintro (hp | ⟨a, b, ha, hb, hab, hleft, hright⟩)
  . left
    rwa [← active_congr h hpq]
  . right
    refine ⟨a, b, ha, hb, hab, ?_, ?_⟩
    . rwa [← active_congr h (Int.emod_sub_cancel_right a |>.mpr hpq)]
    . rwa [← active_congr h (Int.emod_add_cancel_right b |>.mpr hpq)]

theorem active_fillHoles (p : Int) : (r.fillHoles reach).Active p ↔ Closed r.Active reach p := by
  apply active_iff_of_nat (r := r.fillHoles reach)
  . rintro q (hq | ⟨a, -, -, -, -, hleft, -⟩)
    . simpa using size_pos_of_active hq
    . simpa using size_pos_of_active hleft
  . intro hc q hq
    rw [size_fillHoles]
    rcases hq with hq | ⟨a, b, ha, hb, -, hleft, hright⟩
    . exact bounds_of_active (r := r) hc hq
    . have := bounds_of_active (r := r) hc hleft
      have := bounds_of_active (r := r) hc hright
      omega
  . intro hc q q' hqq'
    rw [size_fillHoles] at hqq'
    exact closed_congr (r := r) hc hqq'
  . intro q hq
    rw [size_fillHoles] at hq
    exact active_fillHoles_nat hq

end

end CalendarCode.Row
