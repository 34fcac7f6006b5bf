import CalendarCode.Proofs.Scalar.Encode
import CalendarCode.Scalar.Closeness
import Mathlib.Algebra.Order.Group.MinMax
import Mathlib.Order.Bounds.Basic

/-!
This module contains what the closeness of two values measures. On a line it is their distance. On a
circle a value may be led around by whole turns, and the least of all distances that come out of it
counts. That makes it a distance of places on the circle: whole turns of either value do not change
it, it is zero only at the same place, and no detour is shorter.
-/

namespace CalendarCode

variable {x span : Rat}

theorem exists_abs_add_turns (h : |x| ≤ span) :
    ∃ turns : Int, |x + turns * span| = min |x| (span - |x|) := by
  rcases le_total |x| (span - |x|) with hle | hle
  . rw [min_eq_left hle]
    exact ⟨0, by simp⟩
  . rw [min_eq_right hle]
    rcases le_total 0 x with hx | hx
    . refine ⟨-1, ?_⟩
      push_cast
      rw [abs_of_nonneg hx] at h ⊢
      rw [abs_of_nonpos (by linarith)]
      ring
    . refine ⟨1, ?_⟩
      push_cast
      rw [abs_of_nonpos hx] at h ⊢
      rw [abs_of_nonneg (by linarith)]
      ring

theorem min_le_abs_add_turns (h : |x| ≤ span) (turns : Int) :
    min |x| (span - |x|) ≤ |x + turns * span| := by
  have hspan : 0 ≤ span := le_trans (abs_nonneg x) h
  have hneg := neg_abs_le x
  have hpos := le_abs_self x
  rcases lt_trichotomy turns 0 with hback | hzero | hon
  . have hturns : (turns : Rat) ≤ -1 := by exact_mod_cast Int.le_sub_one_of_lt hback
    have hmul := mul_le_mul_of_nonneg_right hturns hspan
    have habs := neg_abs_le (x + turns * span)
    apply min_le_of_right_le
    linarith
  . rw [hzero]
    apply min_le_of_left_le
    simp
  . have hturns : (1 : Rat) ≤ turns := by exact_mod_cast hon
    have hmul := mul_le_mul_of_nonneg_right hturns hspan
    have habs := le_abs_self (x + turns * span)
    apply min_le_of_right_le
    linarith

/-- Within one turn, the shorter way round is the shortest of all ways. -/
theorem isLeast_abs_add_turns (h : |x| ≤ span) :
    IsLeast (Set.range fun turns : Int => |x + turns * span|) (min |x| (span - |x|)) := by
  constructor
  . exact exists_abs_add_turns h
  . rintro _ ⟨turns, rfl⟩
    exact min_le_abs_add_turns h turns

namespace ScalarCodec

variable (k : ScalarCodec Rat)

def turned (x : Rat) : Set Rat :=
  Set.range fun turns : Int => |x + turns * k.span|

theorem turned_add_turns (x : Rat) (turns : Int) : k.turned (x + turns * k.span) = k.turned x := by
  unfold turned
  ext d
  constructor
  . rintro ⟨more, rfl⟩
    refine ⟨turns + more, ?_⟩
    push_cast
    ring_nf
  . rintro ⟨more, rfl⟩
    refine ⟨more - turns, ?_⟩
    push_cast
    ring_nf

theorem closeness_eq_distance (e a : Rat) : k.closeness e a false = k.distance e a := rfl

theorem closeness_eq_share (e a : Rat) :
    k.closeness e a true = 1 - min (k.distance e a / k.span) 1 := by
  rw [← Arith.smaller_eq_min]
  rfl

theorem distance_of_line (h : k.periodic = false) (e a : Rat) : k.distance e a = |e - a| := by
  rw [← Arith.abs_eq_abs]
  simp [distance, h]

theorem distance_of_circle (h : k.periodic = true) (e a : Rat) : k.distance e a
    = min |Arith.modulo (e - k.low) k.span - Arith.modulo (a - k.low) k.span|
        (k.span - |Arith.modulo (e - k.low) k.span - Arith.modulo (a - k.low) k.span|) := by
  rw [← Arith.smaller_eq_min]
  rw [← Arith.abs_eq_abs]
  simp [distance, h]

section

variable (h : k.periodic = true)

include h

theorem isLeast_distance (e a : Rat) : IsLeast (k.turned (e - a)) (k.distance e a) := by
  have hspan := k.span_pos
  have he := Arith.modulo_nonneg (e - k.low) hspan
  have he' := Arith.modulo_lt (e - k.low) hspan
  have ha := Arith.modulo_nonneg (a - k.low) hspan
  have ha' := Arith.modulo_lt (a - k.low) hspan
  have hturn : Arith.modulo (e - k.low) k.span - Arith.modulo (a - k.low) k.span
      = e - a + (⌊(a - k.low) / k.span⌋ - ⌊(e - k.low) / k.span⌋ : Int) * k.span := by
    rw [Arith.modulo_eq]
    rw [Arith.modulo_eq]
    push_cast
    ring
  rw [← k.turned_add_turns _ (⌊(a - k.low) / k.span⌋ - ⌊(e - k.low) / k.span⌋)]
  rw [← hturn]
  rw [k.distance_of_circle h]
  apply isLeast_abs_add_turns
  rw [abs_le]
  constructor
  . linarith
  . linarith

theorem distance_comm (e a : Rat) : k.distance e a = k.distance a e := by
  rw [k.distance_of_circle h]
  rw [k.distance_of_circle h]
  rw [abs_sub_comm]

theorem distance_nonneg (e a : Rat) : 0 ≤ k.distance e a := by
  obtain ⟨turns, hturns⟩ := (k.isLeast_distance h e a).1
  rw [← hturns]
  exact abs_nonneg _

theorem distance_le_half (e a : Rat) : k.distance e a ≤ k.span / 2 := by
  rw [k.distance_of_circle h]
  by_contra hlt
  rw [not_le] at hlt
  rw [lt_min_iff] at hlt
  linarith

theorem distance_eq_zero_iff (e a : Rat) :
    k.distance e a = 0 ↔ ∃ turns : Int, e - a = turns * k.span := by
  obtain ⟨hmem, hleast⟩ := k.isLeast_distance h e a
  constructor
  . intro hzero
    obtain ⟨turns, hturns⟩ := hmem
    rw [hzero] at hturns
    refine ⟨-turns, ?_⟩
    push_cast
    linarith [abs_eq_zero.mp hturns]
  . rintro ⟨turns, hturns⟩
    apply le_antisymm
    . apply hleast
      refine ⟨-turns, ?_⟩
      rw [hturns]
      simp
    . exact k.distance_nonneg h e a

theorem distance_add_turns (e a : Rat) (turns turns' : Int) :
    k.distance (e + turns * k.span) (a + turns' * k.span) = k.distance e a := by
  have hleast := k.isLeast_distance h (e + turns * k.span) (a + turns' * k.span)
  have hdiff : e + turns * k.span - (a + turns' * k.span)
      = e - a + (turns - turns' : Int) * k.span := by
    push_cast
    ring
  rw [hdiff] at hleast
  rw [turned_add_turns] at hleast
  exact hleast.unique (k.isLeast_distance h e a)

theorem distance_triangle (x y z : Rat) : k.distance x z ≤ k.distance x y + k.distance y z := by
  obtain ⟨first, hfirst⟩ := (k.isLeast_distance h x y).1
  obtain ⟨second, hsecond⟩ := (k.isLeast_distance h y z).1
  -- both ways one after the other are a way from the first to the last value
  have hway : |x - y + first * k.span + (y - z + second * k.span)| ∈ k.turned (x - z) := by
    refine ⟨first + second, ?_⟩
    push_cast
    ring_nf
  calc k.distance x z
      ≤ |x - y + first * k.span + (y - z + second * k.span)| :=
        (k.isLeast_distance h x z).2 hway
    _ ≤ |x - y + first * k.span| + |y - z + second * k.span| := abs_add_le _ _
    _ = k.distance x y + k.distance y z := by rw [← hfirst, ← hsecond]

end

structure IsCircular : Prop where
  isLeast : ∀ e a, IsLeast (Set.range fun turns : Int => |e - a + turns * k.span|)
    (k.closeness e a false)
  comm : ∀ e a, k.closeness e a false = k.closeness a e false
  bounds : ∀ e a, 0 ≤ k.closeness e a false ∧ k.closeness e a false ≤ k.span / 2
  eq_zero_iff : ∀ e a, k.closeness e a false = 0 ↔ ∃ turns : Int, e - a = turns * k.span
  add_turns : ∀ (e a : Rat) (turns turns' : Int),
    k.closeness (e + turns * k.span) (a + turns' * k.span) false = k.closeness e a false
  triangle : ∀ x y z,
    k.closeness x z false ≤ k.closeness x y false + k.closeness y z false
  share : ∀ e a, k.closeness e a true = 1 - k.closeness e a false / k.span

structure IsStraight : Prop where
  distance : ∀ e a, k.closeness e a false = |e - a|
  share : ∀ e a, k.closeness e a true = max 0 (1 - |e - a| / k.span)

theorem isCircular (h : k.periodic = true) : k.IsCircular where
  isLeast := k.isLeast_distance h
  comm := k.distance_comm h
  bounds e a := ⟨k.distance_nonneg h e a, k.distance_le_half h e a⟩
  eq_zero_iff := k.distance_eq_zero_iff h
  add_turns := k.distance_add_turns h
  triangle := k.distance_triangle h
  share := by
    intro e a
    have hspan := k.span_pos
    have hhalf := k.distance_le_half h e a
    have hle : k.distance e a / k.span ≤ 1 := by
      rw [div_le_one hspan]
      linarith
    rw [closeness_eq_share]
    rw [min_eq_left hle]
    rw [closeness_eq_distance]

theorem isStraight (h : k.periodic = false) : k.IsStraight where
  distance := k.distance_of_line h
  share := by
    intro e a
    rw [closeness_eq_share]
    rw [k.distance_of_line h]
    rw [← max_sub_sub_left]
    rw [sub_self]
    rw [max_comm]

/-- The closeness of two values is told from their distance, on a circle as on a line. -/
theorem closeness_isDistance :
    (k.periodic = true → k.IsCircular) ∧ (k.periodic = false → k.IsStraight) := by
  constructor
  . exact k.isCircular
  . exact k.isStraight

theorem closeness_isDistance_hours_shares :
    (hours.periodic = true ∧ hours.IsCircular ∧ hours.closeness (-1) 49 false = 2 ∧
      hours.closeness (-1) 49 true = 11 / 12) ∧
    (shares.periodic = false ∧ shares.IsStraight ∧ shares.closeness (-1) 1 false = 2 ∧
      shares.closeness (-1) 1 true = 0) := by
  refine ⟨⟨rfl, (closeness_isDistance hours).1 rfl, ?_, ?_⟩, rfl,
    (closeness_isDistance shares).2 rfl, ?_, ?_⟩
  . decide +kernel
  . decide +kernel
  . decide +kernel
  . decide +kernel

end ScalarCodec

end CalendarCode
