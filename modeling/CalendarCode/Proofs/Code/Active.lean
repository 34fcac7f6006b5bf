import CalendarCode.Code.Similarity
import Mathlib.Data.List.Nodup
import Mathlib.Data.List.GetD

/-!
This module looks at a code through its active positions. They are what its list of active positions
holds, in ascending order, and what its number of active positions counts.
-/

namespace CalendarCode.Code

def isActive (c : Code) (p : Nat) : Bool :=
  c.activity.getD p false

def IsBinary (c : Code) : Prop :=
  ∀ b ∈ c.bytes, b = 0 ∨ b = 1

theorem isActive_of_size_le {c : Code} {p : Nat} (h : c.size ≤ p) : c.isActive p = false := by
  unfold isActive
  rw [List.getD_eq_default]
  simpa using h

theorem lt_size_of_isActive {c : Code} {p : Nat} (h : c.isActive p = true) : p < c.size := by
  by_contra hle
  rw [isActive_of_size_le (by omega)] at h
  contradiction

theorem isActive_of_lt_size {a b : Code}
    (h : ∀ p < a.size, a.isActive p = true → b.isActive p = true) (p : Nat)
    (hp : a.isActive p = true) : b.isActive p = true :=
  h p (lt_size_of_isActive hp) hp

theorem isActive_eq_getElem (c : Code) {p : Nat} (h : p < c.bytes.length) :
    c.isActive p = (c.bytes[p] != 0) := by
  unfold isActive
  rw [List.getD_eq_getElem _ _ (by simpa [size] using h)]
  simp [activity]

@[simp]
theorem isActive_ofFn (n : Nat) (f : Nat → Bool) (p : Nat) :
    (ofFn n f).isActive p = (decide (p < n) && f p) := by
  by_cases h : p < n
  . rw [isActive_eq_getElem]
    . simp [ofFn, h]
    . simpa [ofFn] using h
  . rw [isActive_of_size_le]
    . simp [h]
    . simpa using h

@[simp]
theorem isActive_zeros (n p : Nat) : (zeros n).isActive p = false := by
  simp only [isActive, activity_zeros, List.getD_eq_getElem?_getD, List.getElem?_replicate]
  split <;> rfl

theorem isBinary_ofFn (n : Nat) (f : Nat → Bool) : (ofFn n f).IsBinary := by
  intro b hb
  simp only [ofFn, List.mem_map] at hb
  obtain ⟨p, -, rfl⟩ := hb
  cases f p
  . left; rfl
  . right; rfl

theorem isBinary_zeros (n : Nat) : (zeros n).IsBinary := by
  intro b hb
  left
  exact List.eq_of_mem_replicate hb

theorem activity_eq (c : Code) : c.activity = (List.range c.size).map c.isActive := by
  apply List.ext_getElem
  . simp
  . intro p h1 h2
    have hp : p < c.bytes.length := by simpa [size] using h1
    simp [isActive_eq_getElem c hp, activity]

theorem activity_congr {a b : Code} (hsize : a.size = b.size)
    (h : ∀ p, a.isActive p = true ↔ b.isActive p = true) : a.activity = b.activity := by
  rw [activity_eq]
  rw [activity_eq]
  rw [hsize]
  apply List.map_congr_left
  intro p _
  exact Bool.eq_iff_iff.mpr (h p)

theorem any_activity_iff {c : Code} :
    c.activity.any id = true ↔ ∃ p, c.isActive p = true := by
  rw [activity_eq]
  simp only [List.any_map, List.any_eq_true, List.mem_range, Function.comp_apply, id_eq]
  constructor
  . rintro ⟨p, -, hp⟩
    exact ⟨p, hp⟩
  . rintro ⟨p, hp⟩
    exact ⟨p, lt_size_of_isActive hp, hp⟩

theorem exists_isActive_iff {c : Code} :
    (∃ p, c.isActive p = true) ↔ ∃ b ∈ c.bytes, b ≠ 0 := by
  rw [← any_activity_iff]
  simp [activity]

theorem activePositions_eq (c : Code) :
    c.activePositions = (List.range c.size).filter c.isActive := by
  have hzip : c.bytes.zipIdx = (List.range c.size).map fun p => (c.bytes.getD p 0, p) := by
    apply List.ext_getElem
    . simp [size]
    . intro p h1 h2
      have hp : p < c.bytes.length := by simpa using h1
      simp [hp]
  unfold activePositions
  rw [hzip]
  rw [List.filterMap_map]
  rw [← List.filterMap_eq_filter]
  apply List.filterMap_congr
  intro p hp
  have hp : p < c.bytes.length := by simpa [size] using hp
  simp [isActive_eq_getElem c hp, hp, Option.guard]

theorem mem_activePositions {c : Code} {p : Nat} : p ∈ c.activePositions ↔ c.isActive p = true := by
  rw [activePositions_eq]
  simp only [List.mem_filter, List.mem_range, and_iff_right_iff_imp]
  exact lt_size_of_isActive

theorem pairwise_lt_activePositions (c : Code) : c.activePositions.Pairwise (· < ·) := by
  rw [activePositions_eq]
  apply List.Pairwise.filter
  exact List.pairwise_lt_range

theorem nodup_activePositions (c : Code) : c.activePositions.Nodup :=
  c.pairwise_lt_activePositions.imp Nat.ne_of_lt

theorem length_activePositions (c : Code) : c.activePositions.length = c.activeCount := by
  rw [activeCount_eq]
  rw [activity_eq]
  rw [activePositions_eq]
  rw [List.count]
  rw [List.countP_map]
  rw [List.countP_eq_length_filter]
  simp [Function.comp_def]

theorem activeCount_zeros (n : Nat) : (zeros n).activeCount = 0 := by
  rw [activeCount_eq]
  rw [List.count_eq_zero]
  simp [activity_zeros]

end CalendarCode.Code
