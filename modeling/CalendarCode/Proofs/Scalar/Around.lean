import CalendarCode.Proofs.Scalar.Recovery

/-!
This module contains codes that go around a circle. They are decoded to one range, from which half a
run is missing at both ends of the domain, so that a value at the upper end is not near to it unless
single positions are active. A codec that has hardly more positions than a run encodes all values as
such codes.
-/

namespace CalendarCode.ScalarCodec

variable (k : ScalarCodec Rat)

/-- What is left of a full circle when half a run is taken away at both ends of the row. -/
def innerRange : Rat × Rat :=
  (k.mark k.halfwidth, k.mark (k.size - 1 - k.halfwidth))

theorem ranges_of_goesAround {code : Code} (hsize : code.size = k.size) (h : k.GoesAround code) :
    (k.filled code).runs.flatMap k.rangesOf = [k.innerRange] := by
  have hc := h.1
  have hwidth := k.width_eq
  have hlt := k.width_lt_size
  have hpos := k.size_pos
  rw [Row.runs_of_full hc (by simpa [hsize] using hpos) (k.active_filled_of_goesAround hsize h)]
  simp only [List.flatMap_cons, List.flatMap_nil, List.append_nil, size_filled, hsize]
  rw [k.rangesOf_of_circle hc hpos (by simp; omega) (le_refl _)]
  have hleft : k.place ((0 : Nat) + k.halfwidth) = k.halfwidth := by
    rw [Nat.cast_zero]
    rw [zero_add]
    exact k.place_of_lt hc (by omega)
  have hright : k.place ((0 : Nat) + k.size - 1 - k.halfwidth) = k.size - 1 - k.halfwidth := by
    rw [show ((0 : Nat) : Int) + k.size - 1 - k.halfwidth = ((k.size - 1 - k.halfwidth : Nat) : Int)
      by omega]
    exact k.place_of_lt hc (by omega)
  rw [hleft]
  rw [hright]
  unfold arc
  rw [if_neg (by simp; omega)]
  rfl

theorem isNear_innerRange_of_single (h : k.periodic = true) (hw : k.width = 1) (v : Rat) :
    k.IsNear ⟨[k.innerRange]⟩ v := by
  have hb := k.bucketOf_lt_size h v
  have hwidth := k.width_eq
  refine ⟨k.innerRange, List.mem_singleton_self _, k.mark (k.bucketOf v), ?_, ?_,
    k.isWithin_mark v⟩
  . apply k.mark_mono
    omega
  . apply k.mark_mono
    omega

theorem resolution_lt (h : k.periodic = true) : (k.size - 1) * k.resolution < k.span := by
  have hceil := Int.ceil_lt_add_one (k.span / k.resolution)
  rw [← k.size_of_circle h] at hceil
  rw [← sub_lt_iff_lt_add] at hceil
  rw [lt_div_iff₀ k.resolution_pos] at hceil
  exact_mod_cast hceil

theorem resolution_lt_half_run (h : k.periodic = true) (hw : k.width ≠ 1) :
    k.resolution < (k.halfwidth + 1 / 2) * k.step := by
  have hwidth := k.width_eq
  have hlt := k.width_lt_size
  have hstep := k.step_pos
  have hres := k.resolution_lt h
  have hspan := k.size_mul_step h
  have hhalf : (1 : Rat) ≤ k.halfwidth := by
    exact_mod_cast show 1 ≤ k.halfwidth by omega
  have hsize : (4 : Rat) ≤ k.size := by
    exact_mod_cast show 4 ≤ k.size by omega
  have hwide : k.size * k.step ≤ (k.size - 1) * (3 / 2 * k.step) := by
    nlinarith
  have hless : k.resolution < 3 / 2 * k.step := by
    apply lt_of_mul_lt_mul_left (a := (k.size : Rat) - 1)
    . linarith
    . linarith
  nlinarith

theorem not_isNear_innerRange (h : k.periodic = true) (hw : k.width ≠ 1) :
    ¬k.IsNear ⟨[k.innerRange]⟩ (k.high - k.step / 2) := by
  have hlt := k.width_lt_size
  have hwidth := k.width_eq
  have hstep := k.step_pos
  have hspan := k.size_mul_step h
  have hshort := k.resolution_lt_half_run h hw
  rintro ⟨range, hrange, x, hlow, hhigh, hwithin⟩
  rw [List.mem_singleton] at hrange
  subst hrange
  rw [k.isWithin_of_circle h] at hwithin
  obtain ⟨turns, hturns⟩ := hwithin
  simp only [innerRange] at hlow hhigh
  rw [k.mark_of_circle h] at hlow hhigh
  rw [k.high_eq_of_circle h] at hturns
  rw [← hspan] at hturns
  rw [abs_le] at hturns
  have hcast : ((k.size - 1 - k.halfwidth : Nat) : Rat) = k.size - 1 - k.halfwidth := by
    rw [Nat.cast_sub (by omega)]
    rw [Nat.cast_sub (by omega)]
    simp
  rw [hcast] at hhigh
  -- without a turn the value lies too far above the range, and with one too far below it
  by_cases hsign : 0 ≤ turns
  . have hturn : (0 : Rat) ≤ turns * (k.size * k.step) := by
      apply mul_nonneg
      . exact_mod_cast hsign
      . rw [hspan]
        exact le_of_lt k.span_pos
    linarith
  . have hturn : turns * (k.size * k.step) ≤ (-1 : Rat) * (k.size * k.step) := by
      apply mul_le_mul_of_nonneg_right
      . exact_mod_cast show turns ≤ -1 by omega
      . rw [hspan]
        exact le_of_lt k.span_pos
    linarith

theorem goesAround_runCode_iff (h : k.periodic = true) (b : Nat) :
    k.GoesAround (k.runCode b) ↔ k.size ≤ k.width + k.halfwidth := by
  have hsize := k.size_pos
  have hactive (p : Int) : (k.runCode b).isActive (k.place p) = true
      ↔ (p - k.startOf b) % (k.size : Int) < k.width := by
    have := k.place_lt_size h p
    rw [k.isActive_runCode_of_circle h]
    rw [k.place_of_circle h]
    rw [Int.emod_sub_emod]
    omega
  unfold GoesAround
  simp only [hactive]
  constructor
  . rintro ⟨-, hshort⟩
    obtain ⟨j, hj, hrun⟩ := hshort (k.startOf b + k.width)
    by_contra hlt
    rw [show k.startOf b + k.width + j - k.startOf b = ((k.width + j : Nat) : Int) by omega] at hrun
    rw [Int.emod_eq_of_lt (by omega) (by omega)] at hrun
    omega
  . intro hle
    refine ⟨h, ?_⟩
    intro s
    have hnonneg := Int.emod_nonneg (s - k.startOf b) (show (k.size : Int) ≠ 0 by omega)
    have hlt := Int.emod_lt_of_pos (s - k.startOf b) (show (0 : Int) < k.size by omega)
    by_cases hrun : (s - k.startOf b) % (k.size : Int) < k.width
    . refine ⟨0, by omega, ?_⟩
      simpa using hrun
    . -- the next turn of the run starts soon enough
      refine ⟨(k.size - (s - k.startOf b) % (k.size : Int)).toNat, by omega, ?_⟩
      rw [Int.toNat_of_nonneg (by omega)]
      rw [show s + (k.size - (s - k.startOf b) % (k.size : Int)) - k.startOf b
        = (s - k.startOf b) - (s - k.startOf b) % (k.size : Int) + k.size by omega]
      rw [Int.add_emod_right]
      rw [Int.sub_emod_emod]
      rw [sub_self]
      rw [Int.zero_emod]
      exact_mod_cast k.width_pos

theorem goesAround_encode_iff (h : k.periodic = true) (v : Rat) :
    k.GoesAround (k.encode v) ↔ k.size ≤ k.width + k.halfwidth := by
  rw [encode_exact]
  exact k.goesAround_runCode_iff h _

def full : Code :=
  .ofFn k.size fun _ => true

theorem goesAround_full (h : k.periodic = true) : k.GoesAround k.full := by
  refine ⟨h, ?_⟩
  intro s
  refine ⟨0, by omega, ?_⟩
  simp [full, k.place_lt_size h]

theorem contains_full (v : Rat) : k.Contains k.full v := by
  intro p hp
  have hlt := Code.lt_size_of_isActive hp
  simpa [full] using hlt

theorem exists_isActive_of_contains {code : Code} {v : Rat} (h : k.Contains code v) :
    ∃ p, code.isActive p = true := by
  have hwidth := k.width_pos
  cases hc : k.periodic with
  | false =>
    have hfits := k.bucketOf_add_width_le hc v
    refine ⟨k.bucketOf v, h _ ?_⟩
    rw [encode_exact]
    rw [k.isActive_runCode_of_line hc]
    omega
  | true =>
    refine ⟨k.place (k.startOf (k.bucketOf v)), h _ ?_⟩
    rw [encode_exact]
    rw [k.isActive_runCode_of_circle hc]
    refine ⟨k.place_lt_size hc _, ?_⟩
    rw [k.place_of_circle hc]
    rw [Int.emod_sub_emod]
    rw [sub_self]
    rw [Int.zero_emod]
    exact_mod_cast hwidth

theorem decode_of_contains {code : Code} {v : Rat} (hsize : code.size = k.size)
    (h : k.Contains code v) :
    k.decode code = .ok (some ⟨(k.filled code).runs.flatMap k.rangesOf⟩) := by
  obtain ⟨p, hp⟩ := k.exists_isActive_of_contains h
  exact k.decode_of_isActive hsize hp

theorem decode_of_goesAround {code : Code} {v : Rat} (hsize : code.size = k.size)
    (h : k.Contains code v) (haround : k.GoesAround code) :
    k.decode code = .ok (some ⟨[k.innerRange]⟩) := by
  rw [k.decode_of_contains hsize h]
  rw [k.ranges_of_goesAround hsize haround]

def Recovers (code : Code) (v : Rat) : Prop :=
  ∃ d, k.decode code = .ok (some d) ∧ k.IsNear d v

theorem recovers_iff {code : Code} {v : Rat} (hsize : code.size = k.size)
    (h : k.Contains code v) :
    k.Recovers code v ↔ (k.GoesAround code → k.IsNear ⟨[k.innerRange]⟩ v) := by
  by_cases haround : k.GoesAround code
  . unfold Recovers
    rw [k.decode_of_goesAround hsize h haround]
    simp [haround]
  . simp only [haround, false_implies, iff_true]
    exact ⟨_, k.decode_of_contains hsize h, k.isNear_of_not_goesAround hsize h haround⟩

theorem not_recovers_of_goesAround {code : Code} (hsize : code.size = k.size)
    (h : k.Contains code (k.high - k.step / 2)) (haround : k.GoesAround code) (hw : k.width ≠ 1) :
    ¬k.Recovers code (k.high - k.step / 2) := by
  rw [k.recovers_iff hsize h]
  intro hnear
  exact k.not_isNear_innerRange haround.1 hw (hnear haround)

theorem recovers_of_single {code : Code} {v : Rat} (hsize : code.size = k.size)
    (h : k.Contains code v) (hw : k.periodic = true → k.width = 1) : k.Recovers code v := by
  rw [k.recovers_iff hsize h]
  intro haround
  exact k.isNear_innerRange_of_single haround.1 (hw haround.1) v

theorem forall_recovers_iff : (∀ code v, code.size = k.size → k.Contains code v → k.Recovers code v)
    ↔ (k.periodic = true → k.width = 1) := by
  constructor
  . intro hall hc
    by_contra hw
    have hsize : k.full.size = k.size := by simp [full]
    apply k.not_recovers_of_goesAround hsize (k.contains_full _) (k.goesAround_full hc) hw
    exact hall _ _ hsize (k.contains_full _)
  . intro hw code v hsize h
    exact k.recovers_of_single hsize h hw

theorem forall_recovers_encode_iff : (∀ v, k.Recovers (k.encode v) v)
    ↔ (k.periodic = true → k.width = 1 ∨ k.width + k.halfwidth < k.size) := by
  have hcontains (v : Rat) : k.Contains (k.encode v) v := fun p hp => hp
  constructor
  . intro hall hc
    by_contra hnot
    rw [not_or] at hnot
    have haround := (k.goesAround_encode_iff hc (k.high - k.step / 2)).mpr (by omega)
    exact k.not_recovers_of_goesAround (k.size_encode _) (hcontains _) haround hnot.1 (hall _)
  . intro hcond v
    rw [k.recovers_iff (k.size_encode v) (hcontains v)]
    intro haround
    have hlarge := (k.goesAround_encode_iff haround.1 v).mp haround
    rcases hcond haround.1 with hw | hw
    . exact k.isNear_innerRange_of_single haround.1 hw v
    . omega

/--
A code that contains a value is decoded to some ranges. One of them is near to the value as long as
the code does not go around, and else if what is left of the circle is near. So a codec gives back
all values from all codes that contain them just if it is a line or writes single positions, and
from their own encodings also if its circle has room for a gap that is not filled.
-/
theorem decode_recovers_iff (k : ScalarCodec Rat) :
    (∀ code v, code.size = k.size → k.Contains code v →
      (∃ d, k.decode code = .ok (some d)) ∧
        (k.Recovers code v ↔ (k.GoesAround code → k.IsNear ⟨[k.innerRange]⟩ v))) ∧
    ((∀ code v, code.size = k.size → k.Contains code v → k.Recovers code v)
      ↔ (k.periodic = true → k.width = 1)) ∧
    ((∀ v, k.Recovers (k.encode v) v)
      ↔ (k.periodic = true → k.width = 1 ∨ k.width + k.halfwidth < k.size)) := by
  refine ⟨?_, k.forall_recovers_iff, k.forall_recovers_encode_iff⟩
  intro code v hsize h
  exact ⟨⟨_, k.decode_of_contains hsize h⟩, k.recovers_iff hsize h⟩

theorem decode_recovers_iff_hours :
    let code : Code := ⟨(List.range 30).map fun p => if p ∈ [0, 1, 10, 27, 28, 29] then 7 else 0⟩
    code.size = hours.size ∧ hours.Contains code (239 / 10) ∧
      ¬hours.GoesAround code ∧ hours.Recovers code (239 / 10) := by
  intro code
  have hsize : code.size = hours.size := by decide +kernel
  have hcontains : hours.Contains code (239 / 10) := by
    intro p hp
    have hlt := Code.lt_size_of_isActive hp
    rw [size_encode] at hlt
    rw [show hours.size = 30 by decide +kernel] at hlt
    exact (show ∀ p < 30, (hours.encode (239 / 10)).isActive p = true → code.isActive p = true by
      decide +kernel) p hlt hp
  have hgap : ¬hours.GoesAround code := by
    rintro ⟨-, hshort⟩
    exact absurd (hshort 2) (by decide +kernel)
  refine ⟨hsize, hcontains, hgap, ?_⟩
  rw [((decode_recovers_iff hours).1 code (239 / 10) hsize hcontains).2]
  intro haround
  exact absurd haround hgap

theorem tight_forgets_zero :
    (tight.encode 0).size = tight.size ∧ tight.Contains (tight.encode 0) 0 ∧
      tight.decode (tight.encode 0) = .ok (some ⟨[(2, 3)]⟩) ∧
      ¬tight.Recovers (tight.encode 0) 0 := by
  have hactive : (tight.encode 0).isActive 0 = true := by decide +kernel
  have hranges : (tight.filled (tight.encode 0)).runs.flatMap tight.rangesOf = [(2, 3)] := by
    decide +kernel
  have hdecode : tight.decode (tight.encode 0) = .ok (some ⟨[(2, 3)]⟩) := by
    rw [tight.decode_of_isActive (tight.size_encode 0) hactive]
    rw [hranges]
  refine ⟨tight.size_encode 0, fun p hp => hp, hdecode, ?_⟩
  rintro ⟨d, hd, range, hrange, x, hlow, hhigh, hwithin⟩
  rw [hdecode] at hd
  cases hd
  rw [List.mem_singleton] at hrange
  subst hrange
  obtain ⟨turns, hturns⟩ := (tight.isWithin_of_circle rfl).mp hwithin
  rw [show tight.span = 6 by decide +kernel] at hturns
  rw [show tight.resolution = 1 by decide +kernel] at hturns
  rw [abs_le] at hturns
  simp only at hlow hhigh
  have hfirst : (0 : Rat) < turns := by linarith
  have hlast : (turns : Rat) < 1 := by linarith
  have hfirst : 0 < turns := by exact_mod_cast hfirst
  have hlast : turns < 1 := by exact_mod_cast hlast
  omega

end CalendarCode.ScalarCodec
