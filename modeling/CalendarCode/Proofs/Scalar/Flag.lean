import CalendarCode.Proofs.Calendar
import CalendarCode.Proofs.Scalar.Reconstruct
import CalendarCode.Proofs.Scalar.Recovery

/-!
This module contains the codes of flags. On a line, what is read in the encoding of a value is the
mark of its bucket. If the line goes from zero to one and the radius is one, the codes of zero and
one are the two halves of all positions, and the marks are zero and one themselves.
-/

namespace CalendarCode

theorem Aspect.flag_true : (flag true : Rat) = 1 := rfl

theorem Aspect.flag_false : (flag false : Rat) = 0 := rfl

/-- The code of a flag: the first half of the positions is active for no, the second one for yes. -/
def Code.flag (width : Nat) (b : Bool) : Code :=
  .ofFn (2 * width) fun p => decide (width ≤ p) == b

theorem Code.flag_inj {width : Nat} (h : 0 < width) {a b : Bool} :
    flag width a = flag width b ↔ a = b := by
  constructor
  . intro hcode
    have hfirst := congrArg (fun c => c.isActive 0) hcode
    simp only [flag, isActive_ofFn] at hfirst
    cases a <;> cases b <;> simp_all
  . intro hab
    rw [hab]

namespace ScalarCodec

variable (k : ScalarCodec Rat)

theorem active_filled_encode (h : k.periodic = false) (v : Rat) (p : Int) :
    (k.filled (k.encode v)).Active p ↔ k.bucketOf v ≤ p ∧ p < k.bucketOf v + k.width := by
  have hactive (q : Int) : (k.row (k.encode v)).Active q
      ↔ k.bucketOf v ≤ q ∧ q < k.bucketOf v + k.width := by
    rw [encode_exact]
    rw [k.active_row_runCode (k.hasBucket_bucketOf v)]
    rw [k.covered_starts_of_line h]
  rw [active_filled]
  unfold Closed
  simp only [hactive]
  constructor
  . intro hp
    cases hp with
    | inl hp => assumption
    | inr hgap =>
      obtain ⟨i, j, hi, hj, -, hleft, hright⟩ := hgap
      omega
  . intro hp
    left
    assumption

theorem runs_filled_encode (h : k.periodic = false) (v : Rat) :
    (k.filled (k.encode v)).runs = [⟨k.bucketOf v, k.width⟩] := by
  have hwidth := k.width_pos
  have hfits := k.bucketOf_add_width_le h v
  apply Row.runs_eq_singleton
  . exact ⟨-1, Row.not_active_of_neg h (by omega)⟩
  . rw [size_filled]
    rw [size_encode]
    simp only
    omega
  . exact hwidth
  . exact k.active_filled_encode h v

theorem isActive_encode_bucketOf (h : k.periodic = false) (v : Rat) :
    (k.encode v).isActive (k.bucketOf v) = true := by
  have hwidth := k.width_pos
  have hfits := k.bucketOf_add_width_le h v
  rw [encode_exact]
  rw [k.isActive_runCode_of_line h]
  omega

theorem read_encode_of_line (h : k.periodic = false) (v : Rat) :
    k.read (k.encode v) = some ⟨[(k.mark (k.bucketOf v), k.mark (k.bucketOf v))]⟩ := by
  have hdecode := k.decode_of_isActive (k.size_encode v) (k.isActive_encode_bucketOf h v)
  unfold decode at hdecode
  rw [if_pos (k.size_encode v)] at hdecode
  rw [Except.ok.inj hdecode]
  rw [k.runs_filled_encode h]
  rw [List.flatMap_singleton]
  rw [k.rangesOf_of_line h (le_refl _)]
  rw [Nat.add_sub_cancel]
  unfold arc
  rw [if_neg (by simp)]

structure IsFlag : Prop where
  low : k.low = 0
  high : k.high = 1
  radius : k.radius = 1
  periodic : k.periodic = false

variable {k}

theorem IsFlag.mul_step (hk : k.IsFlag) (b : Bool) :
    (if b then k.width else 0 : Nat) * k.step = Aspect.flag b := by
  rw [k.step_of_line hk.periodic]
  rw [resolution_eq]
  rw [hk.radius]
  cases b with
  | false =>
    rw [Aspect.flag_false]
    simp
  | true =>
    rw [Aspect.flag_true]
    exact mul_one_div_cancel (ne_of_gt k.width_pos_exact)

theorem IsFlag.size_eq (hk : k.IsFlag) : k.size = 2 * k.width := by
  have hsize := k.size_of_line hk.periodic
  have hspan : k.span / k.resolution = (k.width : Int) := by
    rw [span_eq]
    rw [resolution_eq]
    rw [hk.low]
    rw [hk.high]
    rw [hk.radius]
    simp
  rw [hspan] at hsize
  rw [Int.ceil_intCast] at hsize
  omega

theorem IsFlag.bucketOf_flag (hk : k.IsFlag) (b : Bool) :
    k.bucketOf (Aspect.flag b) = if b then k.width else 0 := by
  have hflag := Aspect.flag_bounds b
  have hstep := k.step_pos
  have hbound : k.bound (Aspect.flag b) = Aspect.flag b := by
    apply k.bound_of_mem
    . rw [hk.low]
      exact hflag.1
    . rw [hk.high]
      exact hflag.2
    . rw [hk.periodic]
      nofun
  apply k.bucketOf_eq
  . rw [hbound]
    rw [hk.low]
    rw [k.lead_of_line hk.periodic]
    rw [← hk.mul_step]
    linarith
  . rw [hbound]
    rw [hk.low]
    rw [k.lead_of_line hk.periodic]
    rw [← hk.mul_step]
    linarith

theorem IsFlag.mark_bucketOf_flag (hk : k.IsFlag) (b : Bool) :
    k.mark (k.bucketOf (Aspect.flag b)) = Aspect.flag b := by
  rw [hk.bucketOf_flag]
  rw [k.mark_of_line hk.periodic]
  rw [← k.step_of_line hk.periodic]
  rw [hk.mul_step]
  rw [hk.low]
  rw [hk.high]
  rw [zero_add]
  exact min_eq_left (Aspect.flag_bounds b).2

theorem IsFlag.read_encode_flag (hk : k.IsFlag) (b : Bool) :
    k.read (k.encode (Aspect.flag b)) = some ⟨[(Aspect.flag b, Aspect.flag b)]⟩ := by
  rw [k.read_encode_of_line hk.periodic]
  rw [hk.mark_bucketOf_flag]

theorem IsFlag.encode_flag (hk : k.IsFlag) (b : Bool) :
    k.encode (Aspect.flag b) = .flag k.width b := by
  rw [encode_exact]
  rw [hk.bucketOf_flag]
  unfold runCode Code.flag Code.ofFn
  rw [hk.size_eq]
  rw [hk.periodic]
  rw [k.startOf_of_line hk.periodic]
  congr 1
  apply List.map_congr_left
  intro p hp
  rw [List.mem_range] at hp
  congr 1
  rw [Bool.eq_iff_iff]
  rw [inRun_line]
  cases b with
  | false =>
    simp only [Bool.false_eq_true, ↓reduceIte, beq_false, Bool.not_eq_true',
      decide_eq_false_iff_not]
    omega
  | true =>
    simp only [↓reduceIte, beq_true, decide_eq_true_eq]
    omega

end ScalarCodec

end CalendarCode
