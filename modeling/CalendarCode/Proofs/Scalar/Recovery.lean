import CalendarCode.Proofs.Scalar.Ranges
import CalendarCode.Proofs.Scalar.Starts

/-!
This module contains what decoding gives back of a value whose run is in a code. The run that the
code has there stands for ranges that hold the mark of the bucket, and the mark is no more than a
resolution away from the value. A circle that is active all around is the exception: it has no ends,
but half a run is taken away at both sides of the first position all the same.
-/

namespace CalendarCode.ScalarCodec

section

variable {α : Type} [Arith α] (k : ScalarCodec α)

def filled (code : Code) : Row :=
  (k.row code).fillHoles k.halfwidth

def Contains (code : Code) (v : α) : Prop :=
  ∀ p, (k.encode v).isActive p = true → code.isActive p = true

/-- Whether a code on a circle has no gap that is longer than half a run. -/
def GoesAround (code : Code) : Prop :=
  k.periodic = true ∧ ∀ s : Int, ∃ j ≤ k.halfwidth, code.isActive (k.place (s + j)) = true

@[simp]
theorem size_filled (code : Code) : (k.filled code).size = code.size := by
  simp [filled]

theorem active_filled (code : Code) (p : Int) :
    (k.filled code).Active p ↔ Closed (k.row code).Active k.halfwidth p :=
  Row.active_fillHoles p

theorem decode_of_isActive {code : Code} (hsize : code.size = k.size) {p : Nat}
    (hp : code.isActive p = true) :
    k.decode code = .ok (some ⟨(k.filled code).runs.flatMap k.rangesOf⟩) := by
  have hany := Code.any_activity_iff.mpr ⟨p, hp⟩
  simp only [decode, hsize, ↓reduceIte, read, hany]
  rfl

theorem decode_of_not_isActive {code : Code} (hsize : code.size = k.size)
    (h : ¬∃ p, code.isActive p = true) : k.decode code = .ok none := by
  rw [← Code.any_activity_iff] at h
  simp only [decode, hsize, ↓reduceIte, read, h, Bool.false_eq_true]

theorem active_row_nat (code : Code) {p : Nat} (hp : p < code.size) :
    (k.row code).Active p ↔ code.isActive p = true := by
  have hget := k.getD_row code p
  rw [Array.getD_eq_getD_getElem?] at hget
  rw [Array.getElem?_eq_getElem (by simpa [row] using hp)] at hget
  rw [Row.active_nat (by simpa using hp)]
  rw [← hget]
  rfl

theorem active_row_iff {code : Code} (hsize : code.size = k.size) :
    (∃ p, (k.row code).Active p) ↔ ∃ p, code.isActive p = true := by
  constructor
  . rintro ⟨p, hp⟩
    cases hc : k.periodic with
    | false => exact ⟨_, ((k.active_row_of_line hc code p).mp hp).2⟩
    | true => exact ⟨_, (k.active_row_of_circle hc hsize p).mp hp⟩
  . rintro ⟨p, hp⟩
    exact ⟨p, (k.active_row_nat code (Code.lt_size_of_isActive hp)).mpr hp⟩

theorem active_filled_iff {code : Code} (hsize : code.size = k.size) :
    (∃ p, (k.filled code).Active p) ↔ ∃ p, code.isActive p = true := by
  rw [← k.active_row_iff hsize]
  simp only [active_filled]
  constructor
  . rintro ⟨p, hp | ⟨a, b, -, -, -, hleft, -⟩⟩
    . exact ⟨p, hp⟩
    . exact ⟨_, hleft⟩
  . rintro ⟨p, hp⟩
    exact ⟨p, .inl hp⟩

theorem active_row_mono {a b : Code} (ha : a.size = k.size) (hb : b.size = k.size)
    (h : ∀ p, a.isActive p = true → b.isActive p = true) {p : Int} (hp : (k.row a).Active p) :
    (k.row b).Active p := by
  cases hc : k.periodic with
  | false =>
    rw [k.active_row_of_line hc] at hp ⊢
    exact ⟨hp.1, h _ hp.2⟩
  | true =>
    rw [k.active_row_of_circle hc ha] at hp
    rw [k.active_row_of_circle hc hb]
    exact h _ hp

theorem active_filled_of_run {code : Code} (hsize : code.size = k.size) {b : Nat}
    (hb : k.HasBucket b) (hsub : ∀ p, (k.runCode b).isActive p = true → code.isActive p = true)
    {p : Int} (hle : k.startOf b ≤ p) (hlt : p < k.startOf b + k.width) :
    (k.filled code).Active p := by
  rw [active_filled]
  left
  apply k.active_row_mono (k.size_runCode b) hsize hsub
  rw [k.active_row_runCode hb]
  exact ⟨k.startOf b, k.starts_startOf hb rfl, hle, hlt⟩

theorem active_filled_of_goesAround {code : Code} (hsize : code.size = k.size)
    (h : k.GoesAround code) (p : Int) : (k.filled code).Active p := by
  obtain ⟨hc, hshort⟩ := h
  have hactive (s : Int) : ∃ j ≤ k.halfwidth, (k.row code).Active (s + j) := by
    simp only [k.active_row_of_circle hc hsize]
    exact hshort s
  rw [active_filled]
  by_cases hp : (k.row code).Active p
  . left
    exact hp
  . -- the gap around the position, which has to end on both sides
    obtain ⟨i, hi, hback⟩ := hactive (p - k.halfwidth)
    obtain ⟨j, hj, hon⟩ := hactive p
    obtain ⟨first, last, hfirst, hlast, hgap⟩ :=
      IsSegment.exists_around (A := fun q => ¬(k.row code).Active q) hp
        ⟨_, by omega, not_not_intro hback⟩ ⟨_, by omega, not_not_intro hon⟩
    obtain ⟨l, hl, hinside⟩ := hactive first
    have hlength : last < first + l := by
      by_contra hle
      exact hgap.inside _ (by omega) (by omega) hinside
    apply closed_of_gap first last hfirst hlast (by omega)
    . exact not_not.mp hgap.before
    . exact not_not.mp hgap.behind

theorem goesAround_of_active_filled {code : Code} (hsize : code.size = k.size)
    (hc : k.periodic = true) (h : ∀ p, (k.filled code).Active p) : k.GoesAround code := by
  refine ⟨hc, ?_⟩
  intro s
  rcases (k.active_filled code s).mp (h s) with hs | ⟨a, b, ha, hb, hab, -, hon⟩
  . refine ⟨0, by omega, ?_⟩
    rw [← k.active_row_of_circle hc hsize]
    simpa using hs
  . refine ⟨b.toNat, by omega, ?_⟩
    rw [← k.active_row_of_circle hc hsize]
    rwa [Int.toNat_of_nonneg (le_of_lt hb)]

theorem exists_gap_of_not_goesAround {code : Code} (hsize : code.size = k.size)
    (h : ¬k.GoesAround code) : ∃ q, ¬(k.filled code).Active q := by
  cases hc : k.periodic with
  | false => exact ⟨-1, Row.not_active_of_neg hc (by omega)⟩
  | true =>
    by_contra hfull
    apply h
    apply k.goesAround_of_active_filled hsize hc
    intro p
    by_contra hp
    exact hfull ⟨p, hp⟩

end

variable (k : ScalarCodec Rat)

theorem mark_mono {a b : Nat} (h : a ≤ b) : k.mark a ≤ k.mark b := by
  have hcast : (a : Rat) ≤ b := by exact_mod_cast h
  cases hc : k.periodic with
  | false =>
    rw [k.mark_of_line hc]
    rw [k.mark_of_line hc]
    apply min_le_min_right
    have := mul_le_mul_of_nonneg_right hcast (le_of_lt k.resolution_pos)
    linarith
  | true =>
    rw [k.mark_of_circle hc]
    rw [k.mark_of_circle hc]
    have := mul_le_mul_of_nonneg_right hcast (le_of_lt k.step_pos)
    linarith

theorem low_le_mark (b : Nat) : k.low ≤ k.mark b := by
  have hzero : k.low ≤ k.mark 0 := by
    have := k.low_le_high
    cases hc : k.periodic with
    | false =>
      rw [k.mark_of_line hc]
      simpa using this
    | true =>
      rw [k.mark_of_circle hc]
      simp
  exact le_trans hzero (k.mark_mono (Nat.zero_le b))

theorem mark_le_high {b : Nat} (hb : k.HasBucket b) : k.mark b ≤ k.high := by
  cases hc : k.periodic with
  | false =>
    rw [k.mark_of_line hc]
    apply min_le_right
  | true =>
    rw [k.hasBucket_of_circle hc] at hb
    rw [← k.valueAt_eq_mark hc]
    exact le_of_lt (k.valueAt_lt_high hc hb)

theorem place_add (h : k.periodic = true) (x : Int) {d : Nat} (hd : d < k.size) :
    k.place (x + d) = if k.place x + d < k.size then k.place x + d else k.place x + d - k.size := by
  have hlt := k.place_lt_size h x
  rw [← k.place_place_add h]
  split
  . next hin => exact k.place_of_lt h hin
  . next hout =>
    have hturn : (k.place x : Int) + d = ((k.place x + d - k.size : Nat) : Int) + k.size := by omega
    rw [hturn]
    rw [k.place_add_size h]
    exact k.place_of_lt h (by omega)

theorem exists_mem_arc_of_circle (h : k.periodic = true) (x : Int) {i d : Nat} (hi : i ≤ d)
    (hd : d < k.size) : ∃ range ∈ k.arc (k.place x) (k.place (x + d)),
      range.1 ≤ k.mark (k.place (x + i)) ∧ k.mark (k.place (x + i)) ≤ range.2 := by
  have hlt := k.place_lt_size h x
  have hhigh : k.mark (k.place (x + i)) ≤ k.high := by
    apply k.mark_le_high
    rw [k.hasBucket_of_circle h]
    exact k.place_lt_size h _
  have hlow := k.low_le_mark (k.place (x + i))
  have hmiddle := k.place_add h x (Nat.lt_of_le_of_lt hi hd)
  rw [k.place_add h x hd]
  by_cases hturn : k.place x + d < k.size
  . rw [if_pos (by omega)] at hmiddle
    rw [if_pos hturn]
    unfold arc
    rw [if_neg (by simp)]
    rw [hmiddle]
    refine ⟨_, List.mem_singleton_self _, ?_, ?_⟩
    . apply k.mark_mono
      omega
    . apply k.mark_mono
      omega
  . rw [if_neg hturn]
    unfold arc
    rw [if_pos (by simp [h]; omega)]
    by_cases hfirst : k.place x + i < k.size
    . rw [if_pos hfirst] at hmiddle
      refine ⟨_, List.mem_cons_self, ?_, hhigh⟩
      rw [hmiddle]
      apply k.mark_mono
      omega
    . rw [if_neg hfirst] at hmiddle
      refine ⟨_, List.mem_cons_of_mem _ (List.mem_singleton_self _), hlow, ?_⟩
      rw [hmiddle]
      apply k.mark_mono
      omega

theorem exists_mem_arc_of_line (h : k.periodic = false) {lo b hi : Nat} (hlo : lo ≤ b)
    (hhi : b ≤ hi) : ∃ range ∈ k.arc lo hi, range.1 ≤ k.mark b ∧ k.mark b ≤ range.2 := by
  unfold arc
  rw [if_neg (by simp [h])]
  exact ⟨_, List.mem_singleton_self _, k.mark_mono hlo, k.mark_mono hhi⟩

theorem place_start_add (h : k.periodic = true) {b : Nat} (hb : b < k.size) {first : Int}
    {start d : Nat} (hstart : (start : Int) = first % (k.size : Int))
    (hd : first + d = k.startOf b) : k.place (start + k.halfwidth + d) = b := by
  have hturn : k.place (start + k.halfwidth + d) = k.place b := by
    rw [k.startOf_of_circle h] at hd
    rw [k.place_congr h]
    rw [hstart]
    rw [add_assoc]
    rw [Int.emod_add_emod]
    rw [show first + ((k.halfwidth : Int) + d) = b by omega]
  rw [hturn]
  exact k.place_of_lt h hb

theorem exists_run_mark {code : Code} (hsize : code.size = k.size) (hgap : ¬k.GoesAround code)
    {b : Nat} (hb : k.HasBucket b)
    (hsub : ∀ p, (k.runCode b).isActive p = true → code.isActive p = true) :
    ∃ run ∈ (k.filled code).runs, ∃ range ∈ k.rangesOf run,
      range.1 ≤ k.mark b ∧ k.mark b ≤ range.2 := by
  have hwidth := k.width_eq
  have hgap := k.exists_gap_of_not_goesAround hsize hgap
  have hstart := k.active_filled_of_run hsize hb hsub (le_refl _) (by omega)
  obtain ⟨run, hrun, first, last, hfirst, hlast, hsegment, hlength, hplace⟩ :=
    Row.exists_run hgap hstart
  -- the segment that the run of the bucket starts in does not end before the run does
  have hstop : k.startOf b + k.width ≤ last + 1 := by
    by_contra hshort
    apply hsegment.behind
    exact k.active_filled_of_run hsize hb hsub (by omega) (by omega)
  refine ⟨run, hrun, ?_⟩
  cases hc : k.periodic with
  | false =>
    have hrow : (k.filled code).circular = false := hc
    simp only [hrow, Bool.false_eq_true, ↓reduceIte] at hplace
    rw [k.startOf_of_line hc] at hfirst hstop
    rw [k.rangesOf_of_line hc (by omega)]
    exact k.exists_mem_arc_of_line hc (by omega) (by omega)
  | true =>
    have hrow : (k.filled code).circular = true := hc
    have hle := Row.length_le_size hgap hrun
    have hmem := (Row.mem_runs hgap).mp hrun
    simp only [size_filled, hsize] at hle hmem hplace
    simp only [hrow, ↓reduceIte] at hplace
    rw [k.rangesOf_of_circle hc hmem.1 (by omega) hle]
    have harc := k.exists_mem_arc_of_circle hc (run.start + k.halfwidth : Int)
      (i := (k.startOf b - first).toNat) (d := run.length - k.width) (by omega) (by omega)
    have hbucket : k.place (run.start + k.halfwidth + (k.startOf b - first).toNat) = b := by
      apply k.place_start_add hc ((k.hasBucket_of_circle hc).mp hb) hplace
      omega
    rw [hbucket] at harc
    rw [show (run.start : Int) + k.halfwidth + (run.length - k.width : Nat)
      = run.start + run.length - 1 - k.halfwidth by omega] at harc
    exact harc

/-- Whether a value of the domain is at most a resolution away from another value. -/
def IsWithin (v x : Rat) : Prop :=
  if k.periodic then ∃ turns : Int, |v - x + turns * k.span| ≤ k.resolution
  else |max k.low (min v k.high) - x| ≤ k.resolution

/-- Whether some range holds a value that is at most a resolution away from another one. -/
def IsNear (d : Decoded Rat) (v : Rat) : Prop :=
  ∃ range ∈ d.ranges, ∃ x, range.1 ≤ x ∧ x ≤ range.2 ∧ k.IsWithin v x

theorem isWithin_of_circle (h : k.periodic = true) {v x : Rat} :
    k.IsWithin v x ↔ ∃ turns : Int, |v - x + turns * k.span| ≤ k.resolution := by
  simp [IsWithin, h]

theorem isWithin_of_line (h : k.periodic = false) {v x : Rat} :
    k.IsWithin v x ↔ |k.bound v - x| ≤ k.resolution := by
  rw [k.bound_of_line h]
  rw [Arith.clamp_eq _ _ _ k.low_le_high]
  simp [IsWithin, h]

theorem isWithin_mark (v : Rat) : k.IsWithin v (k.mark (k.bucketOf v)) := by
  have hlow := k.bucketOf_lead_le v
  have hhigh := k.lt_bucketOf_lead v
  have hstep := k.step_le_resolution
  have hpos := k.step_pos
  cases h : k.periodic with
  | false =>
    have := k.bound_le_high v
    rw [k.lead_of_line h] at hlow hhigh
    rw [k.step_of_line h] at hlow hhigh hpos
    rw [k.isWithin_of_line h]
    rw [k.mark_of_line h]
    rw [abs_le]
    constructor
    . have := min_le_left (k.low + k.bucketOf v * k.resolution) k.high
      linarith
    . rw [sub_le_comm]
      apply le_min
      . linarith
      . linarith
  | true =>
    rw [k.lead_of_circle h] at hlow hhigh
    rw [k.isWithin_of_circle h]
    rw [k.mark_of_circle h]
    refine ⟨-⌊(v - k.low) / k.span⌋, ?_⟩
    rw [k.bound_of_circle h] at hlow hhigh
    rw [Arith.modulo_eq] at hlow hhigh
    rw [abs_le]
    push_cast
    constructor
    . linarith
    . linarith

theorem isNear_of_not_goesAround {code : Code} {v : Rat} (hsize : code.size = k.size)
    (hsub : k.Contains code v) (hgap : ¬k.GoesAround code) :
    k.IsNear ⟨(k.filled code).runs.flatMap k.rangesOf⟩ v := by
  unfold Contains at hsub
  rw [encode_exact] at hsub
  obtain ⟨run, hrun, range, hrange, hmark⟩ :=
    k.exists_run_mark hsize hgap (k.hasBucket_bucketOf v) hsub
  refine ⟨range, ?_, k.mark (k.bucketOf v), hmark.1, hmark.2, k.isWithin_mark v⟩
  exact List.mem_flatMap.mpr ⟨run, hrun, hrange⟩

end CalendarCode.ScalarCodec
