import CalendarCode.Proofs.Row.Runs
import CalendarCode.Proofs.Scalar.Encode
import CalendarCode.Scalar.Decode

/-!
This module contains the rows that codes form on the line or circle of a codec. The row of the runs
of some buckets is covered by runs that start at the integers which belong to these buckets.
-/

namespace CalendarCode.ScalarCodec

variable {α : Type} [Arith α] (k : ScalarCodec α)

def Starts (B : Nat → Prop) (s : Int) : Prop :=
  if k.periodic then B (k.place (s + k.halfwidth)) else 0 ≤ s ∧ B s.toNat

def HasBucket (b : Nat) : Prop :=
  if k.periodic then b < k.size else b + k.width ≤ k.size

theorem starts_of_circle (h : k.periodic = true) {B : Nat → Prop} {s : Int} :
    k.Starts B s ↔ B (k.place (s + k.halfwidth)) := by
  simp [Starts, h]

theorem starts_of_line (h : k.periodic = false) {B : Nat → Prop} {s : Int} :
    k.Starts B s ↔ 0 ≤ s ∧ B s.toNat := by
  simp [Starts, h]

theorem hasBucket_of_circle (h : k.periodic = true) {b : Nat} : k.HasBucket b ↔ b < k.size := by
  simp [HasBucket, h]

theorem hasBucket_of_line (h : k.periodic = false) {b : Nat} :
    k.HasBucket b ↔ b + k.width ≤ k.size := by
  simp [HasBucket, h]

theorem hasBucket_bucketOf (k : ScalarCodec Rat) (v : Rat) : k.HasBucket (k.bucketOf v) := by
  cases h : k.periodic with
  | false => exact (k.hasBucket_of_line h).mpr (k.bucketOf_add_width_le h v)
  | true => exact (k.hasBucket_of_circle h).mpr (k.bucketOf_lt_size h v)

@[simp]
theorem size_row (code : Code) : (k.row code).size = code.size := by
  simp [row, Row.size]

theorem getD_row (code : Code) (p : Nat) : (k.row code).bits.getD p false = code.isActive p := by
  simp [row, Code.isActive, Array.getD_eq_getD_getElem?]

theorem active_row_of_circle (h : k.periodic = true) {code : Code} (hsize : code.size = k.size)
    (p : Int) : (k.row code).Active p ↔ code.isActive (k.place p) = true := by
  unfold Row.Active
  rw [Row.isActive_of_circle h]
  rw [getD_row]
  simp [place, h, hsize]

theorem active_row_of_line (h : k.periodic = false) (code : Code) (p : Int) :
    (k.row code).Active p ↔ 0 ≤ p ∧ code.isActive p.toNat = true := by
  unfold Row.Active
  rw [Row.isActive_of_line h]
  rw [getD_row]
  simp

theorem starts_singleton_of_circle (h : k.periodic = true) {b : Nat} (hb : b < k.size) (s : Int) :
    k.Starts (· = b) s ↔ (s - k.startOf b) % (k.size : Int) = 0 := by
  have hmod : (b : Int) = b % (k.size : Int) := by
    rw [Int.emod_eq_of_lt (by omega) (by omega)]
  have hdiff : s - k.startOf b = s + k.halfwidth - b := by
    rw [k.startOf_of_circle h]
    omega
  rw [k.starts_of_circle h]
  rw [← Int.natCast_inj]
  rw [k.place_of_circle h]
  rw [hmod]
  rw [Int.emod_eq_emod_iff_emod_sub_eq_zero]
  rw [hdiff]

theorem covered_starts_of_circle (h : k.periodic = true) {b : Nat} (hb : b < k.size) (p : Int) :
    Covered (k.Starts (· = b)) k.width p ↔ (p - k.startOf b) % (k.size : Int) < k.width := by
  have hsize := k.size_pos
  have hwidth := k.width_lt_size
  have hnonneg := Int.emod_nonneg (p - k.startOf b) (show (k.size : Int) ≠ 0 by omega)
  constructor
  . rintro ⟨s, hs, hsp, hps⟩
    rw [k.starts_singleton_of_circle h hb] at hs
    rw [show p - k.startOf b = (p - s) + (s - k.startOf b) by omega]
    rw [← Int.add_emod_emod]
    rw [hs]
    rw [Int.emod_eq_of_lt (by omega) (by omega)]
    omega
  . intro hlt
    refine ⟨p - (p - k.startOf b) % (k.size : Int), ?_, by omega, by omega⟩
    rw [k.starts_singleton_of_circle h hb]
    rw [show p - (p - k.startOf b) % (k.size : Int) - k.startOf b
      = (p - k.startOf b) - (p - k.startOf b) % (k.size : Int) by omega]
    rw [Int.sub_emod_emod]
    simp

theorem covered_starts_of_line (h : k.periodic = false) (b : Nat) (p : Int) :
    Covered (k.Starts (· = b)) k.width p ↔ b ≤ p ∧ p < b + k.width := by
  constructor
  . rintro ⟨s, hs, hsp, hps⟩
    rw [k.starts_of_line h] at hs
    omega
  . rintro ⟨hbp, hpb⟩
    refine ⟨b, ?_, hbp, hpb⟩
    rw [k.starts_of_line h]
    omega

theorem active_row_runCode {b : Nat} (hb : k.HasBucket b) (p : Int) :
    (k.row (k.runCode b)).Active p ↔ Covered (k.Starts (· = b)) k.width p := by
  cases h : k.periodic with
  | false =>
    rw [k.hasBucket_of_line h] at hb
    rw [k.covered_starts_of_line h]
    rw [k.active_row_of_line h]
    rw [k.isActive_runCode_of_line h]
    omega
  | true =>
    rw [k.hasBucket_of_circle h] at hb
    rw [k.covered_starts_of_circle h hb]
    rw [k.active_row_of_circle h (k.size_runCode b)]
    rw [k.isActive_runCode_of_circle h]
    rw [k.place_of_circle h]
    rw [Int.emod_sub_emod]
    have := k.place_lt_size h p
    omega

theorem starts_startOf {b : Nat} (hb : k.HasBucket b) {B : Nat → Prop} (hB : B b) :
    k.Starts B (k.startOf b) := by
  cases h : k.periodic with
  | false =>
    rw [k.starts_of_line h]
    rw [k.startOf_of_line h]
    exact ⟨by omega, hB⟩
  | true =>
    rw [k.hasBucket_of_circle h] at hb
    rw [k.starts_of_circle h]
    rw [k.startOf_of_circle h]
    rw [sub_add_cancel]
    rw [k.place_of_lt h hb]
    exact hB

end CalendarCode.ScalarCodec
