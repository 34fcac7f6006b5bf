import CalendarCode.Proofs.Code.Active
import Mathlib.Algebra.GroupWithZero.Nat

/-!
This module contains the laws of the overlap of two codes of the same size. It is the number of the
active positions of one code that are active in the other one too, and it adds up over codes that
are put one after the other.
-/

namespace CalendarCode.Code

variable {a b : Code}

theorem overlap_eq_length (h : a.size = b.size) :
    overlap a b = (a.activePositions.filter b.isActive).length := by
  unfold overlap countWith
  rw [activity_eq a]
  rw [activity_eq b]
  rw [← h]
  rw [activePositions_eq]
  rw [List.filter_filter]
  rw [← List.countP_eq_length_filter]
  rw [List.zipWith_map]
  rw [List.zipWith_self]
  rw [List.count]
  rw [List.countP_map]
  apply List.countP_congr
  intro p _
  simp [and_comm]

theorem overlap_le_activeCount (h : a.size = b.size) : overlap a b ≤ a.activeCount := by
  rw [overlap_eq_length h]
  rw [← length_activePositions]
  exact List.length_filter_le _ _

theorem overlap_congr (c : Code) (h : a.activity = b.activity) : c.overlap a = c.overlap b := by
  unfold overlap countWith
  rw [h]

theorem overlap_eq_activeCount_iff (h : a.size = b.size) :
    overlap a b = a.activeCount ↔ ∀ p, a.isActive p = true → b.isActive p = true := by
  rw [overlap_eq_length h]
  rw [← length_activePositions]
  rw [List.length_filter_eq_length_iff]
  simp only [mem_activePositions]

theorem overlap_zeros (n : Nat) (c : Code) : overlap (zeros n) c = 0 := by
  unfold overlap countWith
  rw [activity_zeros]
  rw [List.count_eq_zero]
  intro hmem
  obtain ⟨p, hp, hboth⟩ := List.getElem_of_mem hmem
  simp at hboth

theorem overlap_append {c d : Code} (h : a.size = b.size) :
    overlap (a ++ c) (b ++ d) = overlap a b + overlap c d := by
  unfold overlap countWith
  rw [activity_append]
  rw [activity_append]
  rw [List.zipWith_append (by simpa using h)]
  rw [List.count_append]

theorem overlap_concat {β : Type} {f g : β → Code} {xs : List β}
    (h : ∀ x ∈ xs, (f x).size = (g x).size) : overlap (concat (xs.map f)) (concat (xs.map g))
      = (xs.map fun x => overlap (f x) (g x)).sum := by
  induction xs with
  | nil => rfl
  | cons x xs ih =>
    simp only [List.map_cons, concat_cons, List.sum_cons]
    rw [overlap_append (h x List.mem_cons_self)]
    rw [ih fun y hy => h y (List.mem_cons_of_mem x hy)]

end CalendarCode.Code
