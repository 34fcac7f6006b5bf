import CalendarCode.Proofs.Row.Guarded
import CalendarCode.Proofs.Scalar.Encode

/-!
This module contains which positions become active when the holes of a row are filled: those of the
gaps that are short, from end to end. A gap stands between two active positions, so the ends of a
line are never filled, and on a circle a gap may go past the last position. Filling in place from
the shortest gaps on, with careful look-ups around the end of the row, comes to the same.
-/

namespace CalendarCode

namespace Row

/-- Whether positions that are not active are all that there are between two active ones. -/
structure IsGap (r : Row) (start length : Nat) : Prop where
  start_lt : start < r.size
  pos : 0 < length
  before : r.isActive ((start : Int) - 1) = true
  inside : ∀ d < length, r.isActive ((start + d : Nat) : Int) = false
  behind : r.isActive ((start + length : Nat) : Int) = true

variable {r : Row} {reach start length p d : Nat}

theorem IsGap.reaches (h : r.IsGap start length) (hd : d ≤ length) : r.Reaches start d := by
  have hlt := h.start_lt
  unfold Reaches
  split
  . omega
  . next hc =>
    have hbehind := bounds_of_active (by simpa using hc) h.behind
    omega

theorem closed_of_isGap (h : r.IsGap start length) (hreach : length ≤ reach) (hd : d < length) :
    Closed r.Active reach (start + d : Nat) := by
  apply closed_of_gap start (start + length - 1)
  . omega
  . omega
  . omega
  . exact h.before
  . rw [sub_add_cancel]
    exact h.behind

theorem isGap_of_isSegment {first last : Int} (h : IsSegment (fun q => ¬r.Active q) first last)
    (hstart : start < r.size) (hsame : r.Same first start) :
    r.IsGap start (last + 1 - first).toNat where
  start_lt := hstart
  pos := by
    have := h.le
    omega
  before := (hsame.add (-1)).active_iff.mp (not_not.mp h.before)
  inside := by
    intro d hd
    have hin := h.inside (first + d) (by omega) (by omega)
    rw [(hsame.add d).active_iff] at hin
    exact Bool.eq_false_iff.mpr hin
  behind := by
    have hle := h.le
    have hend := not_not.mp h.behind
    have hplace := hsame.add (last + 1 - first)
    rw [add_sub_cancel] at hplace
    rw [hplace.active_iff] at hend
    rw [← Int.toNat_of_nonneg (a := last + 1 - first) (by omega)] at hend
    exact hend

theorem closed_iff_isGap (hp : p < r.size) : Closed r.Active reach p ↔ r.Active p ∨
    ∃ start length, r.IsGap start length ∧ length ≤ reach ∧
      ∃ d < length, p = (start + d) % r.size := by
  constructor
  . intro hclosed
    by_cases hactive : r.Active p
    . left
      exact hactive
    . right
      obtain ⟨first, last, hfirst, hlast, hshort, hseg⟩ := hclosed.exists_gap hactive
      have hbefore : r.Active (first - 1) := not_not.mp hseg.before
      obtain ⟨start, hstart, hsame⟩ := exists_same_lt (r := r) (q := first) (by omega) fun hc => by
        have := bounds_of_active hc hbefore
        omega
      have hgap := isGap_of_isSegment hseg hstart hsame
      refine ⟨start, (last + 1 - first).toNat, hgap, by omega, (p - first).toNat, by omega, ?_⟩
      rw [(hgap.reaches (by omega)).eq_mod_iff hp]
      have hplace := hsame.add (p - first)
      rw [add_sub_cancel] at hplace
      rw [← Int.toNat_of_nonneg (a := p - first) (by omega)] at hplace
      exact hplace
  . rintro (hactive | ⟨start, length, hgap, hshort, d, hd, hplace⟩)
    . left
      exact hactive
    . rw [(hgap.reaches (le_of_lt hd)).eq_mod_iff hp] at hplace
      exact hplace.symm.closed (closed_of_isGap hgap hshort hd)

structure FillsGaps (r : Row) (reach : Nat) (filled : Row) : Prop where
  circular : filled.circular = r.circular
  size : filled.size = r.size
  active_iff : ∀ p : Nat, p < r.size → (filled.isActive p = true ↔ r.isActive p = true ∨
    ∃ start length, r.IsGap start length ∧ length ≤ reach ∧ ∃ d < length, p = (start + d) % r.size)
  keeps : ∀ p : Nat, r.isActive p = true → filled.isActive p = true
  /-- What stands before the first or behind the last active position of a line stays as it is. -/
  inner : r.circular = false → ∀ p : Nat, filled.isActive p = true →
    ∃ a b : Nat, a ≤ p ∧ p ≤ b ∧ r.isActive a = true ∧ r.isActive b = true
  again : filled.fillHoles reach = filled

theorem fillHoles_fillHoles (r : Row) (reach : Nat) :
    (r.fillHoles reach).fillHoles reach = r.fillHoles reach := by
  apply eq_of_active
  . rfl
  . simp
  . intro p _
    rw [active_fillHoles]
    constructor
    . intro h
      rw [active_fillHoles]
      exact (h.mono fun q hq => (active_fillHoles q).mp hq).of_closed
    . intro h
      left
      exact h

theorem exists_around_of_closed (hc : r.circular = false) (h : Closed r.Active reach p) :
    ∃ a b : Nat, a ≤ p ∧ p ≤ b ∧ r.Active a ∧ r.Active b := by
  rcases h with h | ⟨a, b, ha, hb, -, hleft, hright⟩
  . exact ⟨p, p, le_refl p, le_refl p, h, h⟩
  . have hfirst := bounds_of_active hc hleft
    refine ⟨(p - a).toNat, (p + b).toNat, by omega, by omega, ?_, ?_⟩
    . rw [Int.toNat_of_nonneg hfirst.1]
      exact hleft
    . rw [Int.toNat_of_nonneg (by omega)]
      exact hright

theorem fillsGaps_fillHoles (r : Row) (reach : Nat) : r.FillsGaps reach (r.fillHoles reach) where
  circular := rfl
  size := size_fillHoles r reach
  active_iff _ hp := (active_fillHoles_nat hp).trans (closed_iff_isGap hp)
  keeps p hp := (active_fillHoles p).mpr (.inl hp)
  inner hc p hp := exists_around_of_closed hc ((active_fillHoles p).mp hp)
  again := fillHoles_fillHoles r reach

theorem IsGap.sides_ne (h : r.IsGap start length) (hlength : length + 1 < r.size) :
    (start + length) % r.size ≠ (start + r.size - 1) % r.size := by
  have hlt := h.start_lt
  intro heq
  have hzero := Nat.sub_mod_eq_zero_of_mod_eq heq.symm
  rw [Nat.mod_eq_of_lt (by omega)] at hzero
  omega

end Row

/--
Filling the holes of a row of a codec fills just the gaps of at most half a run, whether all at
once, in place or with careful look-ups. Such a gap stands between two active positions, not around
one.
-/
theorem ScalarCodec.fillHoles_fillsGaps {α : Type} [Arith α] (k : ScalarCodec α) {bits : List Bool}
    (h : bits.length = k.size) :
    let r : Row := ⟨k.periodic, bits.toArray⟩
    let filled := r.fillHoles k.halfwidth
    r.fillPassesGuarded k.halfwidth = .ok filled ∧ r.fillPasses k.halfwidth = filled ∧
      r.FillsGaps k.halfwidth filled ∧
      ∀ start length, r.IsGap start length → length ≤ k.halfwidth →
        (start + length) % k.size ≠ (start + k.size - 1) % k.size := by
  intro r filled
  have hsize : r.size = k.size := h
  refine ⟨r.fillPassesGuarded_eq _, r.fillPasses_eq_fillHoles _, r.fillsGaps_fillHoles _, ?_⟩
  intro start length hgap hshort
  have hwidth := k.width_eq
  have hroom := k.width_lt_size
  rw [← hsize]
  exact hgap.sides_ne (by omega)

theorem ScalarCodec.fillHoles_fillsGaps_hours :
    let bits := (List.range 30).map fun p => decide (p ∈ [1, 2, 5, 9, 28])
    let r : Row := ⟨hours.periodic, bits.toArray⟩
    bits.length = hours.size ∧ r.IsGap 29 2 ∧
      r.fillPassesGuarded hours.halfwidth = .ok (r.fillHoles hours.halfwidth) ∧
      r.FillsGaps hours.halfwidth (r.fillHoles hours.halfwidth) ∧
      (r.fillHoles hours.halfwidth).isActive 0 = true ∧
      (r.fillHoles hours.halfwidth).isActive 7 = false := by
  intro bits r
  have hlength : bits.length = hours.size := by decide +kernel
  have hgap : r.IsGap 29 2 := by
    constructor
    . decide +kernel
    . decide
    . decide +kernel
    . decide +kernel
    . decide +kernel
  obtain ⟨hpasses, -, hfills, -⟩ := fillHoles_fillsGaps hours hlength
  refine ⟨hlength, hgap, hpasses, hfills, ?_, ?_⟩
  . exact (hfills.active_iff 0 (by decide +kernel)).mpr
      (.inr ⟨29, 2, hgap, by decide +kernel, 1, by decide, by decide +kernel⟩)
  . decide +kernel

end CalendarCode
