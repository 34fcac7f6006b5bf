import CalendarCode.Proofs.Row.Passes
import CalendarCode.Proofs.Scalar.Recovery

/-!
This module contains codes that stand for the same because their holes do not count. Whatever is
active between a code and the code with its holes filled makes no difference, and so positions may
be taken out of the runs of a code as long as the gaps stay short.
-/

namespace CalendarCode.ScalarCodec

variable {α : Type} [Arith α] (k : ScalarCodec α)

def mend (code : Code) : Code :=
  .ofFn code.size fun p => (k.filled code).isActive p

@[simp]
theorem size_mend (code : Code) : (k.mend code).size = code.size := by
  simp [mend]

theorem isActive_mend (code : Code) (p : Nat) :
    (k.mend code).isActive p = true ↔ p < code.size ∧ (k.filled code).Active p := by
  simp [mend, Row.Active]

theorem row_mend (code : Code) : k.row (k.mend code) = k.filled code := by
  apply Row.eq_of_active
  . rfl
  . simp
  . intro p hp
    have hp : p < code.size := by simpa using hp
    rw [k.active_row_nat _ (by simpa using hp)]
    rw [isActive_mend]
    exact and_iff_right hp

theorem row_mend_eq_fillPasses (code : Code) :
    k.row (k.mend code) = (k.row code).fillPasses k.halfwidth := by
  rw [row_mend]
  rw [Row.fillPasses_eq_fillHoles]
  rfl

theorem filled_eq_of_between {a b : Code} (ha : a.size = k.size) (hb : b.size = k.size)
    (hab : ∀ p, a.isActive p = true → b.isActive p = true)
    (hba : ∀ p, b.isActive p = true → (k.mend a).isActive p = true) : k.filled b = k.filled a := by
  have hmend : (k.mend a).size = k.size := by simpa using ha
  apply Row.eq_of_active
  . rfl
  . rw [size_filled]
    rw [size_filled]
    rw [ha]
    exact hb
  . intro p _
    rw [active_filled]
    rw [active_filled]
    apply closed_iff_of_between
    . intro q
      exact k.active_row_mono ha hb hab
    . intro q hq
      rw [← active_filled]
      rw [← row_mend]
      exact k.active_row_mono hb hmend hba hq

theorem decode_eq_of_filled_eq {a b : Code} (ha : a.size = k.size) (hb : b.size = k.size)
    (h : k.filled a = k.filled b) : k.decode a = k.decode b := by
  have hiff := k.active_filled_iff ha
  rw [h] at hiff
  rw [k.active_filled_iff hb] at hiff
  by_cases hactive : ∃ p, a.isActive p = true
  . obtain ⟨q, hq⟩ := hiff.mpr hactive
    obtain ⟨p, hp⟩ := hactive
    rw [k.decode_of_isActive ha hp]
    rw [k.decode_of_isActive hb hq]
    rw [h]
  . rw [k.decode_of_not_isActive ha hactive]
    rw [k.decode_of_not_isActive hb (by rwa [hiff])]

theorem decode_eq_of_between {a b : Code} (ha : a.size = k.size) (hb : b.size = k.size)
    (hab : ∀ p, a.isActive p = true → b.isActive p = true)
    (hba : ∀ p, b.isActive p = true → (k.mend a).isActive p = true) :
    k.decode b = k.decode a :=
  k.decode_eq_of_filled_eq hb ha (k.filled_eq_of_between ha hb hab hba)

theorem decode_mend {code : Code} (hsize : code.size = k.size) :
    k.decode (k.mend code) = k.decode code := by
  apply k.decode_eq_of_between hsize (by simpa using hsize)
  . intro p hp
    have hlt := Code.lt_size_of_isActive hp
    rw [isActive_mend]
    rw [active_filled]
    exact ⟨hlt, .inl ((k.active_row_nat code hlt).mpr hp)⟩
  . intro p hp
    exact hp

/--
Whether a code is left of another one when positions strictly inside its runs are taken out, but
never more than half a run of neighbouring ones.
-/
structure IsThinned (code thinned : Code) : Prop where
  size : thinned.size = code.size
  subset : ∀ p, thinned.isActive p = true → code.isActive p = true
  ends : ∀ first last, IsSegment (k.row code).Active first last →
    (k.row thinned).Active first ∧ (k.row thinned).Active last
  short : ∀ (first : Int) (length : Nat),
    (∀ p, first ≤ p → p < first + length → (k.row code).Active p ∧ ¬(k.row thinned).Active p) →
      length ≤ k.halfwidth

section

variable {k} {code thinned : Code} (h : k.IsThinned code thinned)

include h

theorem IsThinned.active_before {first : Int} (hactive : (k.row code).Active first)
    (hout : ¬(k.row thinned).Active first)
    (hbefore : ¬((k.row code).Active (first - 1) ∧ ¬(k.row thinned).Active (first - 1))) :
    (k.row thinned).Active (first - 1) := by
  by_contra hnot
  -- otherwise a run of the code starts at the position, and this is an end that stays
  have hrun : ¬(k.row code).Active (first - 1) := fun hcode => hbefore ⟨hcode, hnot⟩
  obtain ⟨last, hlast, hinside, hbehind⟩ :=
    IsSegment.exists_last hactive (Row.exists_gap_behind ⟨_, hrun⟩ first)
  exact hout (h.ends first last ⟨hlast, hinside, hrun, hbehind⟩).1

theorem IsThinned.active_behind {last : Int} (hactive : (k.row code).Active last)
    (hout : ¬(k.row thinned).Active last)
    (hbehind : ¬((k.row code).Active (last + 1) ∧ ¬(k.row thinned).Active (last + 1))) :
    (k.row thinned).Active (last + 1) := by
  by_contra hnot
  have hrun : ¬(k.row code).Active (last + 1) := fun hcode => hbehind ⟨hcode, hnot⟩
  obtain ⟨first, hfirst, hinside, hbefore⟩ :=
    IsSegment.exists_first hactive (Row.exists_gap_before ⟨_, hrun⟩ last)
  exact hout (h.ends first last ⟨hfirst, hinside, hbefore, hrun⟩).2

theorem IsThinned.exists_not_out (first : Int) : ∃ q, first ≤ q ∧ q ≤ first + k.halfwidth ∧
    ¬((k.row code).Active q ∧ ¬(k.row thinned).Active q) := by
  by_contra hnone
  have hlong := h.short first (k.halfwidth + 1) fun p hfirst hlast => by
    by_contra hp
    exact hnone ⟨p, hfirst, by omega, hp⟩
  omega

theorem IsThinned.closed {p : Int} (hp : (k.row code).Active p) :
    Closed (k.row thinned).Active k.halfwidth p := by
  by_cases hout : (k.row thinned).Active p
  . left
    exact hout
  . -- the stretch of positions around `p` that are taken out
    obtain ⟨q, -, hqp, hq⟩ := h.exists_not_out (p - k.halfwidth)
    obtain ⟨r, hpr, -, hr⟩ := h.exists_not_out p
    obtain ⟨first, last, hfirst, hlast, hstretch⟩ :=
      IsSegment.exists_around (A := fun q => (k.row code).Active q ∧ ¬(k.row thinned).Active q)
        ⟨hp, hout⟩ ⟨q, by omega, hq⟩ ⟨r, hpr, hr⟩
    have hfst := hstretch.inside first (le_refl _) hstretch.le
    have hlst := hstretch.inside last hstretch.le (le_refl _)
    have hshort := h.short first (last + 1 - first).toNat fun p hp1 hp2 =>
      hstretch.inside p hp1 (by omega)
    apply closed_of_gap first last hfirst hlast (by omega)
    . exact h.active_before hfst.1 hfst.2 hstretch.before
    . exact h.active_behind hlst.1 hlst.2 hstretch.behind

theorem IsThinned.isActive_mend {p : Nat} (hp : code.isActive p = true) :
    (k.mend thinned).isActive p = true := by
  have hlt := Code.lt_size_of_isActive hp
  rw [k.isActive_mend]
  rw [active_filled]
  refine ⟨by rw [h.size]; exact hlt, ?_⟩
  apply h.closed
  exact (k.active_row_nat code hlt).mpr hp

end

theorem decode_eq_of_isThinned {code thinned : Code} (hsize : code.size = k.size)
    (h : k.IsThinned code thinned) : k.decode thinned = k.decode code := by
  symm
  apply k.decode_eq_of_between (by rw [h.size]; exact hsize) hsize h.subset
  intro p hp
  exact h.isActive_mend hp

theorem isThinned_of_circle (h : k.periodic = true) {code thinned : Code}
    (hcode : code.size = k.size) (hthinned : thinned.size = k.size)
    (hsubset : ∀ p < thinned.size, thinned.isActive p = true → code.isActive p = true)
    (hfirst : ∀ p < k.size, code.isActive p = true →
      ¬code.isActive (k.place ((p : Int) - 1)) = true → thinned.isActive p = true)
    (hlast : ∀ p < k.size, code.isActive p = true →
      ¬code.isActive (k.place ((p : Int) + 1)) = true → thinned.isActive p = true)
    (hshort : ∀ p < k.size, ∃ i ≤ k.halfwidth, code.isActive (k.place ((p : Int) + i)) = true →
      thinned.isActive (k.place ((p : Int) + i)) = true) : k.IsThinned code thinned where
  size := by
    rw [hthinned]
    exact hcode.symm
  subset := Code.isActive_of_lt_size hsubset
  ends := by
    intro first last hrun
    have hin := hrun.inside first (le_refl _) hrun.le
    have hin' := hrun.inside last hrun.le (le_refl _)
    have hbefore := hrun.before
    have hbehind := hrun.behind
    rw [k.active_row_of_circle h hcode] at hin hin' hbefore hbehind
    rw [sub_eq_add_neg] at hbefore
    rw [← k.place_place_add h] at hbefore hbehind
    rw [k.active_row_of_circle h hthinned]
    rw [k.active_row_of_circle h hthinned]
    constructor
    . exact hfirst _ (k.place_lt_size h first) hin hbefore
    . exact hlast _ (k.place_lt_size h last) hin' hbehind
  short := by
    intro first length hout
    by_contra hlong
    obtain ⟨i, hi, hstays⟩ := hshort (k.place first) (k.place_lt_size h first)
    obtain ⟨hin, hnot⟩ := hout (first + i) (by omega) (by omega)
    rw [k.active_row_of_circle h hcode] at hin
    rw [k.active_row_of_circle h hthinned] at hnot
    rw [k.place_place_add h] at hstays
    exact hnot (hstays hin)

/--
What is active between a code and the code with its holes filled does not change what the code is
decoded to, and it does not matter whether the holes are filled all at once or in place, from the
shortest on. So the encoding of a value may lose positions inside its run, as long as the gaps stay
short.
-/
theorem decode_eq_of_holes {α : Type} [Arith α] (k : ScalarCodec α) :
    (∀ code : Code, k.row (k.mend code) = (k.row code).fillPasses k.halfwidth) ∧
    (∀ a b : Code, a.size = k.size → b.size = k.size →
      (∀ p, a.isActive p = true → b.isActive p = true) →
      (∀ p, b.isActive p = true → (k.mend a).isActive p = true) → k.decode b = k.decode a) ∧
    (∀ (v : α) (thinned : Code), k.IsThinned (k.encode v) thinned →
      k.decode thinned = k.decode (k.encode v)) ∧
    (∀ code : Code, code.size = k.size → k.decode (k.mend code) = k.decode code) := by
  refine ⟨k.row_mend_eq_fillPasses, ?_, ?_, ?_⟩
  . intro a b ha hb hab hba
    exact k.decode_eq_of_between ha hb hab hba
  . intro v thinned h
    exact k.decode_eq_of_isThinned (k.size_encode v) h
  . intro code hsize
    exact k.decode_mend hsize

theorem decode_eq_of_holes_hours :
    let code := hours.encode (239 / 10)
    let thinned : Code := ⟨(List.range 30).map fun p => if p ∈ [0, 1, 27] then 7 else 0⟩
    let partly : Code := ⟨(List.range 30).map fun p => if p ∈ [0, 1, 27, 28] then 1 else 0⟩
    hours.IsThinned code thinned ∧ hours.decode thinned = hours.decode code ∧
      hours.decode partly = hours.decode thinned ∧
        hours.decode (hours.mend thinned) = hours.decode thinned := by
  intro code thinned partly
  have hthinned : thinned.size = hours.size := by decide +kernel
  have hpartly : partly.size = hours.size := by decide +kernel
  have hcircle : hours.IsThinned code thinned := by
    apply isThinned_of_circle hours rfl (hours.size_encode _) hthinned
    . decide +kernel
    . decide +kernel
    . decide +kernel
    . decide +kernel
  have hmore : hours.decode partly = hours.decode thinned := by
    apply (decode_eq_of_holes hours).2.1 thinned partly hthinned hpartly
    . exact Code.isActive_of_lt_size (by decide +kernel)
    . exact Code.isActive_of_lt_size (by decide +kernel)
  exact ⟨hcircle, (decode_eq_of_holes hours).2.2.1 _ _ hcircle, hmore,
    (decode_eq_of_holes hours).2.2.2 thinned hthinned⟩

end CalendarCode.ScalarCodec
