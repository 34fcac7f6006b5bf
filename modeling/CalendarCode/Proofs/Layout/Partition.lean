import CalendarCode.Proofs.Layout
import Mathlib.Algebra.GroupWithZero.Nat
import Mathlib.Data.List.Pairwise
import Mathlib.Logic.ExistsUnique

/-!
This module contains how fields share the positions of a layout, whatever has been pushed. They
begin one behind the other, every position of the layout belongs to exactly one of them, and no
position beyond it belongs to any.
-/

namespace CalendarCode

variable {α : Type} [Arith α]

theorem Field.offset_lt_stop (f : Field α) : f.offset < f.stop := by
  have hsize := f.codec.size_pos
  unfold stop size
  omega

theorem Field.owns_iff {f : Field α} {p : Nat} :
    f.owns p = true ↔ f.offset ≤ p ∧ p < f.offset + f.size := by
  unfold owns stop
  rw [Bool.and_eq_true]
  rw [decide_eq_true_eq]
  rw [decide_eq_true_eq]

theorem sizes_eq_sum (fields : List (Field α)) : sizes fields = (fields.map Field.size).sum := by
  induction fields with
  | nil => rfl
  | cons f fields ih =>
    rw [sizes_cons]
    rw [ih]
    rfl

theorem le_offset_of_contiguous {start : Nat} {fields : List (Field α)}
    (h : Contiguous start fields) {f : Field α} (hf : f ∈ fields) : start ≤ f.offset := by
  induction fields generalizing start with
  | nil => contradiction
  | cons g fields ih =>
    obtain ⟨hoffset, hrest⟩ := h
    rcases List.mem_cons.mp hf with rfl | hf
    . omega
    . have hle := ih hrest hf
      have hlt := g.offset_lt_stop
      omega

theorem pairwise_of_contiguous {start : Nat} {fields : List (Field α)}
    (h : Contiguous start fields) : fields.Pairwise fun f g => f.stop ≤ g.offset := by
  induction fields generalizing start with
  | nil => exact .nil
  | cons f fields ih =>
    obtain ⟨-, hrest⟩ := h
    rw [List.pairwise_cons]
    exact ⟨fun g hg => le_offset_of_contiguous hrest hg, ih hrest⟩

theorem offset_of_contiguous {start i : Nat} {fields : List (Field α)} (h : Contiguous start fields)
    {f g : Field α} (hf : fields[i]? = some f) (hg : fields[i + 1]? = some g) :
    g.offset = f.stop := by
  induction fields generalizing start i with
  | nil => contradiction
  | cons e fields ih =>
    obtain ⟨-, hrest⟩ := h
    rw [List.getElem?_cons_succ] at hg
    cases i with
    | succ i =>
      rw [List.getElem?_cons_succ] at hf
      exact ih hrest hf hg
    | zero =>
      rw [List.getElem?_cons_zero] at hf
      cases hf
      cases fields with
      | nil => contradiction
      | cons _ fields =>
        cases hg
        exact hrest.1

theorem exists_owner_of_contiguous {start p : Nat} {fields : List (Field α)}
    (h : Contiguous start fields) (hstart : start ≤ p) (hp : p < start + sizes fields) :
    ∃ f ∈ fields, f.owns p = true := by
  induction fields generalizing start with
  | nil =>
    rw [sizes_nil] at hp
    omega
  | cons f fields ih =>
    obtain ⟨hoffset, hrest⟩ := h
    rw [sizes_cons] at hp
    by_cases hstop : p < f.stop
    . refine ⟨f, List.mem_cons_self, ?_⟩
      rw [Field.owns_iff]
      unfold Field.stop at hstop
      omega
    . obtain ⟨g, hg, howns⟩ := ih hrest (by omega) (by unfold Field.stop; omega)
      exact ⟨g, List.mem_cons_of_mem f hg, howns⟩

theorem owner_unique {start p i j : Nat} {fields : List (Field α)} (h : Contiguous start fields)
    {f g : Field α} (hi : fields[i]? = some f) (hj : fields[j]? = some g) (hf : f.owns p = true)
    (hg : g.owns p = true) : i = j := by
  have hpairwise := List.pairwise_iff_getElem.mp (pairwise_of_contiguous h)
  obtain ⟨hilt, rfl⟩ := List.getElem?_eq_some_iff.mp hi
  obtain ⟨hjlt, rfl⟩ := List.getElem?_eq_some_iff.mp hj
  rw [Field.owns_iff] at hf hg
  unfold Field.stop at hpairwise
  rcases Nat.lt_trichotomy i j with hlt | heq | hgt
  . have := hpairwise i j hilt hjlt hlt
    omega
  . exact heq
  . have := hpairwise j i hjlt hilt hgt
    omega

namespace Layout

/-- Whether fields that have positions share those of a layout without a gap or an overlap. -/
structure IsPartition (l : Layout α) : Prop where
  first : ∀ f, l.fields[0]? = some f → f.offset = 0
  next : ∀ i f g, l.fields[i]? = some f → l.fields[i + 1]? = some g → g.offset = f.offset + f.size
  increasing : (l.fields.map Field.offset).Pairwise (· < ·)
  size : l.size = (l.fields.map Field.size).sum
  inside : ∀ p < l.size,
    ∃! i : Nat, ∃ f : Field α, l.fields[i]? = some f ∧ f.offset ≤ p ∧ p < f.offset + f.size
  outside : ∀ p, l.size ≤ p → ∀ f ∈ l.fields, ¬(f.offset ≤ p ∧ p < f.offset + f.size)

variable {l : Layout α}

theorem IsTight.exists_owner (h : l.IsTight) {p : Nat} (hp : p < l.size) :
    ∃ f ∈ l.fields, f.owns p = true := by
  rw [h.size_eq] at hp
  apply exists_owner_of_contiguous h.contiguous
  . exact p.zero_le
  . omega

theorem IsTight.isPartition (h : l.IsTight) : l.IsPartition where
  first := by
    intro f hf
    have hcontiguous := h.contiguous
    cases hfields : l.fields with
    | nil =>
      rw [hfields] at hf
      contradiction
    | cons g fields =>
      rw [hfields] at hf hcontiguous
      cases hf
      exact hcontiguous.1
  next := fun i f g hf hg => offset_of_contiguous h.contiguous hf hg
  increasing := by
    rw [List.pairwise_map]
    apply (pairwise_of_contiguous h.contiguous).imp
    intro f g hstop
    have hlt := f.offset_lt_stop
    omega
  size := by
    rw [← sizes_eq_sum]
    exact h.size_eq
  inside := by
    intro p hp
    obtain ⟨f, hf, howns⟩ := h.exists_owner hp
    obtain ⟨i, hi⟩ := List.mem_iff_getElem?.mp hf
    refine ⟨i, ⟨f, hi, Field.owns_iff.mp howns⟩, ?_⟩
    rintro j ⟨g, hj, hbounds⟩
    exact owner_unique h.contiguous hj hi (Field.owns_iff.mpr hbounds) howns
  outside := by
    intro p hp f hf hbounds
    have hstop := stop_le_size h hf
    unfold Field.stop at hstop
    omega

theorem owns_of_owner? {p : Nat} {f : Field α} (h : l.owner? p = some f) : f.owns p = true := by
  unfold owner? at h
  have howns := List.find?_some h
  exact howns

theorem owner?_eq_some_iff (h : l.IsTight) {p : Nat} {f : Field α} :
    l.owner? p = some f ↔ f ∈ l.fields ∧ f.offset ≤ p ∧ p < f.offset + f.size := by
  rw [← Field.owns_iff]
  constructor
  . intro howner
    exact ⟨List.mem_of_find?_eq_some howner, owns_of_owner? howner⟩
  . rintro ⟨hf, howns⟩
    apply find?_eq_some_of_unique hf howns
    intro g hg hgowns
    obtain ⟨i, hi⟩ := List.mem_iff_getElem?.mp hf
    obtain ⟨j, hj⟩ := List.mem_iff_getElem?.mp hg
    rw [owner_unique h.contiguous hi hj howns hgowns] at hi
    exact Option.some.inj (hj.symm.trans hi)

theorem isSome_owner?_iff (h : l.IsTight) {p : Nat} :
    (l.owner? p).isSome = true ↔ p < l.size := by
  rw [Option.isSome_iff_exists]
  constructor
  . rintro ⟨f, hf⟩
    obtain ⟨hmem, -, hp⟩ := (owner?_eq_some_iff h).mp hf
    exact Nat.lt_of_lt_of_le hp (stop_le_size h hmem)
  . intro hp
    obtain ⟨f, hf, howns⟩ := h.exists_owner hp
    exact ⟨f, (owner?_eq_some_iff h).mpr ⟨hf, Field.owns_iff.mp howns⟩⟩

end Layout

end CalendarCode
