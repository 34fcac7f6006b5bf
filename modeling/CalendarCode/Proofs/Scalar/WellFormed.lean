import CalendarCode.Proofs.Scalar.Recovery

/-!
This module contains the form of what any code is decoded to, whether it is made of encodings or
not. The ranges lie in the domain and have no value in common, because more than half a run lies
between the runs of the code once its holes are filled, and no more than half a run of a line lies
beyond each end of the domain, so that two runs are never brought back to the same end.
-/

namespace CalendarCode

theorem length_flatMap_of_pairwise {β γ : Type} {f : β → List γ} {l : List β}
    (h : ∀ a ∈ l, (f a).length = 1 ∨ (f a).length = 2)
    (hsingle : l.Pairwise fun a _ => (f a).length = 1) :
    (l.flatMap f).length = l.length ∨
      (l.flatMap f).length = l.length + 1 ∧ ∃ a ∈ l, (f a).length = 2 := by
  induction l with
  | nil =>
    left
    rfl
  | cons a l ih =>
    rw [List.pairwise_cons] at hsingle
    rw [List.flatMap_cons]
    rw [List.length_append]
    rw [List.length_cons]
    rcases h a List.mem_cons_self with hone | htwo
    . have ih := ih (fun b hb => h b (List.mem_cons_of_mem a hb)) hsingle.2
      rcases ih with hsame | ⟨hmore, b, hb, htwo⟩
      . left
        omega
      . right
        exact ⟨by omega, b, List.mem_cons_of_mem a hb, htwo⟩
    . -- nothing follows an element with two images
      have hlast : l = [] := by
        rw [List.eq_nil_iff_forall_not_mem]
        intro b hb
        have := hsingle.1 b hb
        omega
      subst hlast
      right
      exact ⟨by simp [htwo], a, List.mem_cons_self, htwo⟩

namespace ScalarCodec

section

variable {α : Type} [Arith α] (k : ScalarCodec α)

theorem centers_bounds {run : Run} (h : 0 < run.length) :
    run.start ≤ (k.centers run).1 ∧ (k.centers run).1 ≤ (k.centers run).2 ∧
      (k.centers run).2 < run.start + run.length := by
  have hwidth := k.width_eq
  unfold centers
  split
  . simp only
    omega
  . simp only
    omega

end

variable (k : ScalarCodec Rat)

/-- The value of the domain that is closest to the one that a position stands for. -/
def level (p : Nat) : Rat :=
  min (max (k.valueAt p) k.low) k.high

theorem valueAt_strictMono {p q : Nat} (h : p < q) : k.valueAt p < k.valueAt q := by
  have hcast : (p : Rat) < q := by exact_mod_cast h
  cases hc : k.periodic with
  | false =>
    have := mul_lt_mul_of_pos_right hcast k.resolution_pos
    rw [k.valueAt_eq_of_line hc]
    rw [k.valueAt_eq_of_line hc]
    linarith
  | true =>
    have := mul_lt_mul_of_pos_right hcast k.step_pos
    rw [k.valueAt_of_circle hc]
    rw [k.valueAt_of_circle hc]
    linarith

theorem low_le_level (p : Nat) : k.low ≤ k.level p :=
  le_min (le_max_right _ _) k.low_le_high

theorem level_le_high (p : Nat) : k.level p ≤ k.high :=
  min_le_right _ _

theorem level_mono {p q : Nat} (h : p ≤ q) : k.level p ≤ k.level q := by
  have hle : k.valueAt p ≤ k.valueAt q := by
    rcases Nat.lt_or_eq_of_le h with hlt | heq
    . exact le_of_lt (k.valueAt_strictMono hlt)
    . rw [heq]
  exact min_le_min_right _ (max_le_max_right _ hle)

theorem level_lt_level {p q : Nat} (h : p < q) (hlow : k.low < k.valueAt q)
    (hhigh : k.valueAt p < k.high) : k.level p < k.level q := by
  have hmax : max (k.valueAt p) k.low < k.valueAt q := max_lt (k.valueAt_strictMono h) hlow
  apply lt_of_le_of_lt (min_le_left _ _)
  apply lt_min
  . exact lt_of_lt_of_le hmax (le_max_left _ _)
  . exact max_lt hhigh k.low_lt_high

theorem low_lt_valueAt (h : k.periodic = false) {p : Nat} (hp : k.halfwidth < p) :
    k.low < k.valueAt p := by
  have hcast : (k.halfwidth : Rat) < p := by exact_mod_cast hp
  have := mul_pos (sub_pos.mpr hcast) k.resolution_pos
  rw [k.valueAt_eq_of_line h]
  linarith

theorem valueAt_lt_high_of_line (h : k.periodic = false) {p : Nat}
    (hp : p + k.halfwidth + 1 < k.size) : k.valueAt p < k.high := by
  have hwidth := k.width_eq
  have hsize := k.size_of_line h
  have hceil : (p : Int) - k.halfwidth < ⌈k.span / k.resolution⌉ := by omega
  rw [Int.lt_ceil] at hceil
  rw [lt_div_iff₀ k.resolution_pos] at hceil
  rw [span_eq] at hceil
  push_cast at hceil
  rw [k.valueAt_eq_of_line h]
  linarith

theorem level_lt_level_of_line (h : k.periodic = false) {p q : Nat}
    (hpq : p + 1 + k.halfwidth < q) (hq : q < k.size) : k.level p < k.level q := by
  apply k.level_lt_level
  . omega
  . exact k.low_lt_valueAt h (by omega)
  . exact k.valueAt_lt_high_of_line h (by omega)

theorem level_lt_level_of_circle (h : k.periodic = true) {p q : Nat} (hpq : p < q)
    (hq : q ≤ k.size) : k.level p < k.level q := by
  apply k.level_lt_level hpq
  . exact lt_of_le_of_lt (k.low_le_valueAt h p) (k.valueAt_strictMono hpq)
  . exact k.valueAt_lt_high h (by omega)

theorem mark_eq_level (h : k.periodic = true) {p : Nat} (hp : p < k.size) :
    k.mark p = k.level p := by
  unfold level
  rw [max_eq_left (k.low_le_valueAt h p)]
  rw [min_eq_left (le_of_lt (k.valueAt_lt_high h hp))]
  rw [k.valueAt_eq_mark h]

def stretch (left right : Nat) : List (Rat × Rat) :=
  if right < k.size then [(k.level left, k.level right)]
  else if left < k.size then [(k.level left, k.high), (k.low, k.level (right - k.size))]
  else [(k.level (left - k.size), k.level (right - k.size))]

theorem rangesOf_eq_of_line (h : k.periodic = false) {run : Run}
    (hright : (k.centers run).2 < k.size) :
    k.rangesOf run = k.stretch (k.centers run).1 (k.centers run).2 := by
  simp only [rangesOf, h, Bool.false_and, Bool.false_eq_true, ↓reduceIte, Arith.larger_eq_max,
    Arith.smaller_eq_min]
  unfold stretch
  rw [if_pos hright]
  rfl

theorem arc_eq_stretch (h : k.periodic = true) {left right : Nat} (hle : left ≤ right)
    (hlt : right < left + k.size) (hright : right < 2 * k.size) :
    k.arc (k.place left) (k.place right) = k.stretch left right := by
  unfold stretch
  split
  . next hin =>
    rw [k.place_of_lt h (by omega)]
    rw [k.place_of_lt h hin]
    unfold arc
    rw [if_neg (by simp; omega)]
    rw [k.mark_eq_level h (by omega)]
    rw [k.mark_eq_level h hin]
  . next hout =>
    obtain ⟨r, rfl⟩ := Nat.exists_eq_add_of_le' (not_lt.mp hout)
    push_cast
    rw [k.place_add_size h]
    rw [k.place_of_lt h (p := r) (by omega)]
    rw [Nat.add_sub_cancel]
    split
    . next hleft =>
      rw [k.place_of_lt h hleft]
      unfold arc
      rw [if_pos (by simp [h]; omega)]
      rw [k.mark_eq_level h hleft]
      rw [k.mark_eq_level h (by omega)]
    . next hleft =>
      obtain ⟨l, rfl⟩ := Nat.exists_eq_add_of_le' (not_lt.mp hleft)
      push_cast
      rw [k.place_add_size h]
      rw [k.place_of_lt h (by omega)]
      rw [Nat.add_sub_cancel]
      unfold arc
      rw [if_neg (by simp; omega)]
      rw [k.mark_eq_level h (by omega)]
      rw [k.mark_eq_level h (by omega)]

theorem rangesOf_eq_stretch {run : Run} (h : run.Fits k.periodic k.size) :
    k.rangesOf run = k.stretch (k.centers run).1 (k.centers run).2 := by
  obtain ⟨hfirst, hle, hlt⟩ := k.centers_bounds h.length_pos
  cases hc : k.periodic with
  | false =>
    have hstop := h.stop_le hc
    exact k.rangesOf_eq_of_line hc (by omega)
  | true =>
    have hstart := h.start_lt
    have hlength := h.length_le
    have hcenters : k.centers run = ((k.centers run).1, (k.centers run).2) := rfl
    rw [k.rangesOf_of_centers hc hcenters hle (by omega) (by omega)]
    exact k.arc_eq_stretch hc hle (by omega) (by omega)

theorem bounds_of_mem_stretch {left right : Nat} (hle : left ≤ right) {range : Rat × Rat}
    (h : range ∈ k.stretch left right) :
    k.low ≤ range.1 ∧ range.1 ≤ range.2 ∧ range.2 ≤ k.high := by
  unfold stretch at h
  split at h
  . rw [List.mem_singleton] at h
    subst h
    exact ⟨k.low_le_level _, k.level_mono hle, k.level_le_high _⟩
  . split at h
    . rw [List.mem_pair] at h
      rcases h with rfl | rfl
      . exact ⟨k.low_le_level _, k.level_le_high _, le_refl _⟩
      . exact ⟨le_refl _, k.low_le_level _, k.level_le_high _⟩
    . rw [List.mem_singleton] at h
      subst h
      exact ⟨k.low_le_level _, k.level_mono (Nat.sub_le_sub_right hle _), k.level_le_high _⟩

theorem sides_of_mem_stretch {left right : Nat} (hle : left ≤ right) {range : Rat × Rat}
    (h : range ∈ k.stretch left right) :
    left < k.size ∧ k.level left ≤ range.1 ∧ (right < k.size → range.2 ≤ k.level right) ∨
      k.size ≤ right ∧ range.2 ≤ k.level (right - k.size) := by
  unfold stretch at h
  split at h
  . next hright =>
    rw [List.mem_singleton] at h
    subst h
    left
    exact ⟨by omega, le_refl _, fun _ => le_refl _⟩
  . next hright =>
    split at h
    . next hleft =>
      rw [List.mem_pair] at h
      rcases h with rfl | rfl
      . left
        exact ⟨hleft, le_refl _, fun hlt => absurd hlt hright⟩
      . right
        exact ⟨by omega, le_refl _⟩
    . rw [List.mem_singleton] at h
      subst h
      right
      exact ⟨by omega, le_refl _⟩

/-- Whether a range ends before another one starts, or on a circle the other way round. -/
def Avoids (a b : Rat × Rat) : Prop :=
  a.2 < b.1 ∨ k.periodic = true ∧ b.2 < a.1

theorem pairwise_avoids_rangesOf {run : Run} (h : run.Fits k.periodic k.size) :
    (k.rangesOf run).Pairwise k.Avoids := by
  obtain ⟨hstart, hle, hlt⟩ := k.centers_bounds h.length_pos
  have hlength := h.length_le
  rw [k.rangesOf_eq_stretch h]
  unfold stretch
  split
  . exact List.pairwise_singleton _ _
  . next hright =>
    split
    . next hleft =>
      have hcircle := h.circular_of_lt (by omega)
      rw [List.pairwise_pair]
      right
      refine ⟨hcircle, ?_⟩
      apply k.level_lt_level_of_circle hcircle
      . omega
      . omega
    . exact List.pairwise_singleton _ _

theorem avoids_of_isApart {a b : Run} (ha : a.Fits k.periodic k.size)
    (hb : b.Fits k.periodic k.size) (h : a.IsApart k.periodic k.size k.halfwidth b)
    {x y : Rat × Rat} (hx : x ∈ k.rangesOf a) (hy : y ∈ k.rangesOf b) : k.Avoids x y := by
  obtain ⟨hfirst, hle, hlt⟩ := k.centers_bounds ha.length_pos
  obtain ⟨hfirst', hle', hlt'⟩ := k.centers_bounds hb.length_pos
  have hahead := h.ahead
  have hstart := hb.start_lt
  rw [k.rangesOf_eq_stretch ha] at hx
  rw [k.rangesOf_eq_stretch hb] at hy
  rcases k.sides_of_mem_stretch hle hx with ⟨hleft, hlow, hhigh⟩ | ⟨hbeyond, -⟩
  . have hhigh := hhigh (by omega)
    rcases k.sides_of_mem_stretch hle' hy with ⟨hleft', hlow', -⟩ | ⟨hbeyond', hhigh'⟩
    . left
      apply lt_of_le_of_lt hhigh
      apply lt_of_lt_of_le _ hlow'
      cases hc : k.periodic with
      | false => exact k.level_lt_level_of_line hc (by omega) hleft'
      | true => exact k.level_lt_level_of_circle hc (by omega) (le_of_lt hleft')
    . -- the second run goes past the upper end, but it does not come to the first one
      have hcircle := hb.circular_of_lt (by omega)
      have haround := h.around hcircle
      right
      refine ⟨hcircle, ?_⟩
      apply lt_of_le_of_lt hhigh'
      apply lt_of_lt_of_le _ hlow
      exact k.level_lt_level_of_circle hcircle (by omega) (le_of_lt hleft)
  . omega

theorem fits_of_mem_runs_filled {code : Code} (hsize : code.size = k.size) {run : Run}
    (h : run ∈ (k.filled code).runs) : run.Fits k.periodic k.size := by
  have hfits := Row.fits_of_mem_runs h
  rw [size_filled] at hfits
  rw [hsize] at hfits
  exact hfits

theorem pairwise_isApart_filled {code : Code} (hsize : code.size = k.size) :
    (k.filled code).runs.Pairwise (Run.IsApart k.periodic k.size k.halfwidth) := by
  have hapart := (k.row code).pairwise_isApart_runs k.halfwidth
  rw [size_row] at hapart
  rw [hsize] at hapart
  exact hapart

theorem pairwise_avoids_decode {code : Code} (hsize : code.size = k.size) :
    ((k.filled code).runs.flatMap k.rangesOf).Pairwise k.Avoids := by
  rw [List.pairwise_flatMap]
  constructor
  . intro run hrun
    exact k.pairwise_avoids_rangesOf (k.fits_of_mem_runs_filled hsize hrun)
  . apply (k.pairwise_isApart_filled hsize).imp_of_mem
    intro a b ha hb hapart x hx y hy
    exact k.avoids_of_isApart (k.fits_of_mem_runs_filled hsize ha)
      (k.fits_of_mem_runs_filled hsize hb) hapart hx hy

/-- Whether a run goes past the upper end of a circle and stands for a range at each end of it. -/
structure Crosses (run : Run) : Prop where
  periodic : k.periodic = true
  start_lt : run.start < k.size
  lt_stop : k.size < run.start + run.length
  ranges : ∃ x y, k.rangesOf run = [(x, k.high), (k.low, y)]

theorem length_rangesOf {run : Run} (h : run.Fits k.periodic k.size) :
    (k.rangesOf run).length = 1 ∨ (k.rangesOf run).length = 2 := by
  rw [k.rangesOf_eq_stretch h]
  unfold stretch
  split
  . left
    rfl
  . split
    . right
      rfl
    . left
      rfl

theorem stretch_of_length {left right : Nat} (h : (k.stretch left right).length = 2) :
    left < k.size ∧ k.size ≤ right ∧
      k.stretch left right = [(k.level left, k.high), (k.low, k.level (right - k.size))] := by
  unfold stretch at h ⊢
  split at h
  . simp at h
  . next hright =>
    rw [if_neg hright]
    split at h
    . next hleft =>
      rw [if_pos hleft]
      exact ⟨hleft, not_lt.mp hright, rfl⟩
    . simp at h

theorem crosses_of_length {run : Run} (h : run.Fits k.periodic k.size)
    (htwo : (k.rangesOf run).length = 2) : k.Crosses run := by
  obtain ⟨-, -, hlt⟩ := k.centers_bounds h.length_pos
  rw [k.rangesOf_eq_stretch h] at htwo
  obtain ⟨-, hright, hranges⟩ := k.stretch_of_length htwo
  rw [← k.rangesOf_eq_stretch h] at hranges
  have hstop : k.size < run.start + run.length := by omega
  exact ⟨h.circular_of_lt hstop, h.start_lt, hstop, _, _, hranges⟩

theorem length_ranges {code : Code} (hsize : code.size = k.size) :
    ((k.filled code).runs.flatMap k.rangesOf).length = (k.filled code).runs.length ∨
      ((k.filled code).runs.flatMap k.rangesOf).length = (k.filled code).runs.length + 1 ∧
        ∃ run ∈ (k.filled code).runs, k.Crosses run := by
  have hsingle : (k.filled code).runs.Pairwise fun a _ => (k.rangesOf a).length = 1 := by
    apply (k.pairwise_isApart_filled hsize).imp_of_mem
    intro a b ha hb hapart
    have hfits := k.fits_of_mem_runs_filled hsize ha
    rcases k.length_rangesOf hfits with hone | htwo
    . exact hone
    . -- no other run starts behind one that crosses the upper end
      have hcross := (k.crosses_of_length hfits htwo).lt_stop
      have hahead := hapart.ahead
      have hstart := (k.fits_of_mem_runs_filled hsize hb).start_lt
      omega
  have hlength := length_flatMap_of_pairwise
    (fun run hrun => k.length_rangesOf (k.fits_of_mem_runs_filled hsize hrun)) hsingle
  rcases hlength with hsame | ⟨hmore, run, hrun, htwo⟩
  . left
    exact hsame
  . right
    exact ⟨hmore, run, hrun, k.crosses_of_length (k.fits_of_mem_runs_filled hsize hrun) htwo⟩

structure IsWellFormed (code : Code) (d : Decoded Rat) : Prop where
  bounds : ∀ range ∈ d.ranges, k.low ≤ range.1 ∧ range.1 ≤ range.2 ∧ range.2 ≤ k.high
  disjoint : d.ranges.Pairwise fun a b => ∀ v, ¬((a.1 ≤ v ∧ v ≤ a.2) ∧ b.1 ≤ v ∧ v ≤ b.2)
  ascending : k.periodic = false → d.ranges.Pairwise fun a b => a.2 < b.1
  /-- There is one range more if a run crosses the upper end of a circle. -/
  length : d.ranges.length = (k.filled code).runs.length ∨
    d.ranges.length = (k.filled code).runs.length + 1 ∧
      ∃ run ∈ (k.filled code).runs, k.Crosses run

theorem isWellFormed_ranges {code : Code} (hsize : code.size = k.size) :
    k.IsWellFormed code ⟨(k.filled code).runs.flatMap k.rangesOf⟩ where
  bounds := by
    intro range hrange
    obtain ⟨run, hrun, hrange⟩ := List.mem_flatMap.mp hrange
    have hfits := k.fits_of_mem_runs_filled hsize hrun
    rw [k.rangesOf_eq_stretch hfits] at hrange
    exact k.bounds_of_mem_stretch (k.centers_bounds hfits.length_pos).2.1 hrange
  disjoint := by
    apply (k.pairwise_avoids_decode hsize).imp
    rintro a b havoids v ⟨⟨hlow, hhigh⟩, hlow', hhigh'⟩
    rcases havoids with hlt | ⟨-, hlt⟩
    . linarith
    . linarith
  ascending := by
    intro h
    apply (k.pairwise_avoids_decode hsize).imp
    rintro a b (hlt | ⟨hcircle, -⟩)
    . exact hlt
    . rw [h] at hcircle
      contradiction
  length := k.length_ranges hsize

/--
A code of the right size is decoded to something just if one of its bytes is not zero, and then the
ranges are well formed, whatever the bytes are.
-/
theorem decode_isWellFormed (k : ScalarCodec Rat) (code : Code) (hsize : code.size = k.size) :
    ∃ result, k.decode code = .ok result ∧
      (result.isSome = true ↔ ∃ b ∈ code.bytes, b ≠ 0) ∧
        ∀ d, result = some d → k.IsWellFormed code d := by
  rw [← Code.exists_isActive_iff]
  by_cases hactive : ∃ p, code.isActive p = true
  . obtain ⟨p, hp⟩ := hactive
    refine ⟨_, k.decode_of_isActive hsize hp, ?_, ?_⟩
    . simp only [Option.isSome_some, true_iff]
      exact ⟨p, hp⟩
    . intro d hd
      cases hd
      exact k.isWellFormed_ranges hsize
  . refine ⟨none, k.decode_of_not_isActive hsize hactive, ?_, ?_⟩
    . simp [hactive]
    . intro d hd
      contradiction

theorem decode_isWellFormed_hours :
    let code : Code :=
      ⟨(List.range 30).map fun p => if p ∈ [0, 1, 2, 3, 10, 25, 27, 28, 29] then 7 else 0⟩
    let d : Decoded Rat := ⟨[(8, 8), (108 / 5, 24), (0, 4 / 5)]⟩
    code.size = hours.size ∧ hours.decode code = .ok (some d) ∧ hours.IsWellFormed code d ∧
      d.ranges.length = (hours.filled code).runs.length + 1 := by
  intro code d
  have hsize : code.size = hours.size := by decide +kernel
  have hactive : code.isActive 10 = true := by decide +kernel
  have hranges : (hours.filled code).runs.flatMap hours.rangesOf = d.ranges := by decide +kernel
  have hdecode : hours.decode code = .ok (some d) := by
    rw [hours.decode_of_isActive hsize hactive]
    rw [hranges]
  obtain ⟨result, hresult, -, hformed⟩ := decode_isWellFormed hours code hsize
  rw [hdecode] at hresult
  cases hresult
  exact ⟨hsize, hdecode, hformed d rfl, by decide +kernel⟩

end ScalarCodec

end CalendarCode
