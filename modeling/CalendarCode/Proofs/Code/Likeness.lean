import CalendarCode.Arith.Exact
import CalendarCode.Proofs.Code.Overlap
import Mathlib.Algebra.Order.Field.Basic
import Mathlib.Algebra.Order.Ring.Rat
import Mathlib.Tactic.FieldSimp
import Mathlib.Tactic.Linarith

/-!
This module contains how the measures of likeness hang together. All of them follow from three
numbers: how many positions are active in each of two codes, and how many in both. So codes that
have equally many active positions are ranked alike by every measure.
-/

namespace CalendarCode.Code

section

variable {xs ys : List Bool}

theorem count_or_add_count_and (h : xs.length = ys.length) :
    (List.zipWith or xs ys).count true + (List.zipWith and xs ys).count true
      = xs.count true + ys.count true := by
  induction xs generalizing ys with
  | nil =>
    rw [List.eq_nil_of_length_eq_zero h.symm]
    rfl
  | cons x xs ih =>
    cases ys with
    | nil => contradiction
    | cons y ys =>
      have ih := ih (Nat.succ.inj h)
      simp only [List.zipWith_cons_cons, List.count_cons]
      cases x <;> cases y <;> simp <;> omega

theorem count_beq_add (h : xs.length = ys.length) :
    (List.zipWith (· == ·) xs ys).count true + xs.count true + ys.count true
      = xs.length + 2 * (List.zipWith and xs ys).count true := by
  induction xs generalizing ys with
  | nil =>
    rw [List.eq_nil_of_length_eq_zero h.symm]
    rfl
  | cons x xs ih =>
    cases ys with
    | nil => contradiction
    | cons y ys =>
      have ih := ih (Nat.succ.inj h)
      simp only [List.zipWith_cons_cons, List.count_cons, List.length_cons]
      cases x <;> cases y <;> simp <;> omega

end

variable {a b c : Code}

theorem unionCount_add_overlap (h : a.size = b.size) :
    unionCount a b + overlap a b = a.activeCount + b.activeCount := by
  rw [activeCount_eq]
  rw [activeCount_eq]
  apply count_or_add_count_and
  simpa using h

theorem agreement_add_activeCount (h : a.size = b.size) :
    agreement a b + a.activeCount + b.activeCount = a.size + 2 * overlap a b := by
  rw [activeCount_eq]
  rw [activeCount_eq]
  rw [← length_activity]
  apply count_beq_add
  simpa using h

theorem overlap_le_min (h : a.size = b.size) : overlap a b ≤ min a.activeCount b.activeCount := by
  apply Nat.le_min_of_le_of_le
  . exact overlap_le_activeCount h
  . rw [overlap_comm]
    exact overlap_le_activeCount h.symm

theorem agreement_le_size (h : a.size = b.size) : agreement a b ≤ a.size := by
  have hcount := agreement_add_activeCount h
  have hle := overlap_le_min h
  omega

theorem hamming_eq (a b : Code) : (hamming a b : Rat)
    = if a.size = 0 then 1 else (agreement a b : Rat) / a.size := rfl

theorem jaccard_eq (a b : Code) : (jaccard a b : Rat)
    = if unionCount a b = 0 then 0 else (overlap a b : Rat) / unionCount a b := rfl

theorem hamming_eq_counts (h : a.size = b.size) : (hamming a b : Rat)
    = if a.size = 0 then (1 : Rat)
      else 1 - ((a.activeCount : Rat) + b.activeCount - 2 * overlap a b) / a.size := by
  rw [hamming_eq]
  split
  . rfl
  . next hne =>
    have hcount : (agreement a b : Rat) + a.activeCount + b.activeCount
        = a.size + 2 * overlap a b := by
      exact_mod_cast agreement_add_activeCount h
    have hsize : (a.size : Rat) ≠ 0 := by exact_mod_cast hne
    rw [eq_sub_iff_add_eq]
    rw [← add_div]
    rw [div_eq_one_iff_eq hsize]
    linarith

theorem jaccard_eq_counts (h : a.size = b.size) : (jaccard a b : Rat)
    = if a.activeCount + b.activeCount = 0 then (0 : Rat)
      else (overlap a b : Rat) / (a.activeCount + b.activeCount - overlap a b) := by
  have hcount := unionCount_add_overlap h
  have hle := overlap_le_min h
  have hunion : (unionCount a b : Rat) = a.activeCount + b.activeCount - overlap a b := by
    rw [eq_sub_iff_add_eq]
    exact_mod_cast hcount
  have hzero : unionCount a b = 0 ↔ a.activeCount + b.activeCount = 0 := by omega
  rw [jaccard_eq]
  simp only [hzero, hunion]

theorem hamming_bounds (h : a.size = b.size) :
    (0 : Rat) ≤ hamming a b ∧ (hamming a b : Rat) ≤ 1 := by
  rw [hamming_eq]
  split
  . exact ⟨zero_le_one, le_refl 1⟩
  . have hle : (agreement a b : Rat) ≤ a.size := by exact_mod_cast agreement_le_size h
    constructor
    . positivity
    . exact div_le_one_of_le₀ hle (Nat.cast_nonneg _)

theorem jaccard_bounds (h : a.size = b.size) :
    (0 : Rat) ≤ jaccard a b ∧ (jaccard a b : Rat) ≤ 1 := by
  rw [jaccard_eq]
  split
  . exact ⟨le_refl 0, zero_le_one⟩
  . have hcount := unionCount_add_overlap h
    have hmin := overlap_le_min h
    have hle : (overlap a b : Rat) ≤ unionCount a b := by
      exact_mod_cast show overlap a b ≤ unionCount a b by omega
    constructor
    . positivity
    . exact div_le_one_of_le₀ hle (Nat.cast_nonneg _)

theorem measure?_comm (m : Metric) (a b : Code) :
    (measure? m a b : Option Rat) = measure? m b a := by
  have hagreement : agreement a b = agreement b a := by
    apply countWith_comm
    intro x y
    exact Bool.beq_comm
  have hunion : unionCount a b = unionCount b a := countWith_comm Bool.or_comm a b
  have hoverlap := overlap_comm a b
  unfold measure? hamming jaccard
  by_cases h : a.size = b.size
  . simp only [h, hagreement, hunion, hoverlap]
  . simp only [h, Ne.symm h, ↓reduceIte]

structure IsMeasured (a b : Code) : Prop where
  overlap : measure? .overlap a b = some (a.overlap b : Rat)
  hamming : measure? .hamming a b = some (if a.size = 0 then (1 : Rat)
    else 1 - ((a.activeCount : Rat) + b.activeCount - 2 * a.overlap b) / a.size)
  jaccard : measure? .jaccard a b = some (if a.activeCount + b.activeCount = 0 then (0 : Rat)
    else (a.overlap b : Rat) / (a.activeCount + b.activeCount - a.overlap b))
  comm : ∀ m, (measure? m a b : Option Rat) = measure? m b a
  overlap_le : a.overlap b ≤ min a.activeCount b.activeCount
  bounds : ∀ m ≠ .overlap, ∃ x : Rat, measure? m a b = some x ∧ 0 ≤ x ∧ x ≤ 1

theorem measure?_overlap (h : a.size = b.size) :
    measure? .overlap a b = some (overlap a b : Rat) := by
  unfold measure?
  rw [if_pos h]
  rfl

theorem measure?_hamming (h : a.size = b.size) :
    measure? .hamming a b = some (hamming a b : Rat) := by
  unfold measure?
  rw [if_pos h]

theorem measure?_jaccard (h : a.size = b.size) :
    measure? .jaccard a b = some (jaccard a b : Rat) := by
  unfold measure?
  rw [if_pos h]

theorem isMeasured (h : a.size = b.size) : a.IsMeasured b where
  overlap := measure?_overlap h
  hamming := by
    rw [measure?_hamming h]
    rw [hamming_eq_counts h]
  jaccard := by
    rw [measure?_jaccard h]
    rw [jaccard_eq_counts h]
  comm := fun m => measure?_comm m a b
  overlap_le := overlap_le_min h
  bounds := by
    intro m hm
    cases m with
    | overlap => contradiction
    | hamming => exact ⟨_, measure?_hamming h, hamming_bounds h⟩
    | jaccard => exact ⟨_, measure?_jaccard h, jaccard_bounds h⟩

/-- Whether two codes are ranked by their likeness to a third one alike by all measures. -/
def RankedAlike (a b c : Code) : Prop :=
  ∀ m : Metric, ∃ x y : Rat, measure? m a b = some x ∧ measure? m a c = some y ∧
    (x ≤ y ↔ a.overlap b ≤ a.overlap c)

theorem activeCount_le_size (c : Code) : c.activeCount ≤ c.size := by
  rw [activeCount_eq]
  rw [← length_activity]
  exact List.count_le_length

theorem hamming_le_hamming_iff (hab : a.size = b.size) (hac : a.size = c.size)
    (hcount : b.activeCount = c.activeCount) :
    (hamming a b : Rat) ≤ hamming a c ↔ a.overlap b ≤ a.overlap c := by
  have hb := overlap_le_min hab
  have hc := overlap_le_min hac
  have hle := a.activeCount_le_size
  rw [hamming_eq_counts hab]
  rw [hamming_eq_counts hac]
  rw [hcount]
  by_cases hsize : a.size = 0
  . rw [if_pos hsize]
    rw [if_pos hsize]
    rw [show a.overlap b = a.overlap c by omega]
    exact iff_of_true (le_refl _) (le_refl _)
  . have hpos : (0 : Rat) < a.size := by exact_mod_cast Nat.pos_of_ne_zero hsize
    rw [if_neg hsize]
    rw [if_neg hsize]
    rw [sub_le_sub_iff_left]
    rw [div_le_div_iff_of_pos_right hpos]
    rw [sub_le_sub_iff_left]
    rw [mul_le_mul_iff_of_pos_left zero_lt_two]
    exact Nat.cast_le

theorem jaccard_le_jaccard_iff (hab : a.size = b.size) (hac : a.size = c.size)
    (hcount : b.activeCount = c.activeCount) :
    (jaccard a b : Rat) ≤ jaccard a c ↔ a.overlap b ≤ a.overlap c := by
  have hb := overlap_le_min hab
  have hc := overlap_le_min hac
  rw [jaccard_eq_counts hab]
  rw [jaccard_eq_counts hac]
  rw [hcount]
  by_cases hzero : a.activeCount = 0
  . rw [show a.overlap b = a.overlap c by omega]
    exact iff_of_true (le_refl _) (le_refl _)
  . have hbpos : (0 : Rat) < a.activeCount + c.activeCount - a.overlap b := by
      rw [sub_pos]
      exact_mod_cast show a.overlap b < a.activeCount + c.activeCount by omega
    have hcpos : (0 : Rat) < a.activeCount + c.activeCount - a.overlap c := by
      rw [sub_pos]
      exact_mod_cast show a.overlap c < a.activeCount + c.activeCount by omega
    have hpos : (0 : Rat) < a.activeCount + c.activeCount := by
      exact_mod_cast show 0 < a.activeCount + c.activeCount by omega
    rw [if_neg (by omega)]
    rw [if_neg (by omega)]
    rw [div_le_div_iff₀ hbpos hcpos]
    -- the product of the two overlaps stands on both sides
    rw [mul_sub]
    rw [mul_sub]
    rw [mul_comm (a.overlap c : Rat) (a.overlap b : Rat)]
    rw [sub_le_sub_iff_right]
    rw [mul_le_mul_iff_of_pos_right hpos]
    exact Nat.cast_le

theorem rankedAlike (hab : a.size = b.size) (hac : a.size = c.size)
    (hcount : b.activeCount = c.activeCount) : RankedAlike a b c := by
  intro m
  cases m with
  | overlap =>
    refine ⟨_, _, measure?_overlap hab, measure?_overlap hac, ?_⟩
    exact Nat.cast_le
  | hamming =>
    refine ⟨_, _, measure?_hamming hab, measure?_hamming hac, ?_⟩
    exact hamming_le_hamming_iff hab hac hcount
  | jaccard =>
    refine ⟨_, _, measure?_jaccard hab, measure?_jaccard hac, ?_⟩
    exact jaccard_le_jaccard_iff hab hac hcount

end CalendarCode.Code
