import Mathlib.Data.Int.LeastGreatest

/-!
This module contains segments of the integers: stretches on which a property holds and that cannot
be made longer. The positions of equally long runs, with the short gaps between them closed, fall
into one segment for each cluster of runs that lie close together.
-/

namespace CalendarCode

/-- Whether a property holds from `first` to `last`, but neither before nor behind. -/
structure IsSegment (A : Int → Prop) (first last : Int) : Prop where
  le : first ≤ last
  inside : ∀ p, first ≤ p → p ≤ last → A p
  before : ¬A (first - 1)
  behind : ¬A (last + 1)

def Covered (S : Int → Prop) (length : Nat) (p : Int) : Prop :=
  ∃ s, S s ∧ s ≤ p ∧ p < s + length

/-- The positions with a property, and those in a gap of at most `reach` between two of them. -/
def Closed (A : Int → Prop) (reach : Nat) (p : Int) : Prop :=
  A p ∨ ∃ a b : Int, 0 < a ∧ 0 < b ∧ a + b ≤ reach + 1 ∧ A (p - a) ∧ A (p + b)

/--
Whether starts from `first` to `last` follow each other in distances of at most `gap`, and there are
no other ones as close as that.
-/
structure IsCluster (S : Int → Prop) (gap : Nat) (first last : Int) : Prop where
  le : first ≤ last
  first_mem : S first
  last_mem : S last
  next : ∀ s, S s → first ≤ s → s < last → ∃ t, S t ∧ s < t ∧ t ≤ s + gap
  before : ∀ s, S s → s < first → s + gap < first
  behind : ∀ s, S s → last < s → last + gap < s

theorem exists_next {S : Int → Prop} {s t : Int} (ht : S t) (hst : s ≤ t) :
    ∃ u, S u ∧ s ≤ u ∧ u ≤ t ∧ ∀ v, s ≤ v → v < u → ¬S v := by
  obtain ⟨u, ⟨hu, hsu⟩, hleast⟩ := Int.exists_least_of_bdd
    (P := fun u => S u ∧ s ≤ u) ⟨s, fun u hu => hu.2⟩ ⟨t, ht, hst⟩
  refine ⟨u, hu, hsu, hleast t ⟨ht, hst⟩, ?_⟩
  intro v hsv hvu hv
  have := hleast v ⟨hv, hsv⟩
  omega

theorem exists_previous {S : Int → Prop} {s t : Int} (hs : S s) (hst : s ≤ t) :
    ∃ u, S u ∧ s ≤ u ∧ u ≤ t ∧ ∀ v, u < v → v ≤ t → ¬S v := by
  obtain ⟨u, ⟨hu, hut⟩, hgreatest⟩ := Int.exists_greatest_of_bdd
    (P := fun u => S u ∧ u ≤ t) ⟨t, fun u hu => hu.2⟩ ⟨s, hs, hst⟩
  refine ⟨u, hu, hgreatest s ⟨hs, hst⟩, hut, ?_⟩
  intro v huv hvt hv
  have := hgreatest v ⟨hv, hvt⟩
  omega

namespace IsSegment

variable {A : Int → Prop}

theorem last_unique {first last last' : Int} (h : IsSegment A first last)
    (h' : IsSegment A first last') : last = last' := by
  rcases lt_trichotomy last last' with hlt | heq | hgt
  . have := h.le
    exact absurd (h'.inside (last + 1) (by omega) (by omega)) h.behind
  . assumption
  . have := h'.le
    exact absurd (h.inside (last' + 1) (by omega) (by omega)) h'.behind

theorem last_succ_lt {first last first' last' : Int} (h : IsSegment A first last)
    (h' : IsSegment A first' last') (hlt : first < first') : last + 1 < first' := by
  by_contra hge
  exact h'.before (h.inside (first' - 1) (by omega) (by omega))

theorem first_unique {first first' last : Int} (h : IsSegment A first last)
    (h' : IsSegment A first' last) : first = first' := by
  have hle := h.le
  have hle' := h'.le
  rcases lt_trichotomy first first' with hlt | heq | hgt
  . have := h.last_succ_lt h' hlt
    omega
  . assumption
  . have := h'.last_succ_lt h hgt
    omega

theorem exists_last {p : Int} (hp : A p) (hend : ∃ q, p ≤ q ∧ ¬A q) :
    ∃ last, p ≤ last ∧ (∀ q, p ≤ q → q ≤ last → A q) ∧ ¬A (last + 1) := by
  obtain ⟨q, hpq, hq⟩ := hend
  obtain ⟨u, hu, hpu, -, hnone⟩ := exists_next (S := fun q => ¬A q) hq hpq
  have hne : p ≠ u := by
    rintro rfl
    contradiction
  refine ⟨u - 1, by omega, ?_, by simpa using hu⟩
  intro r hpr hr
  exact not_not.mp (hnone r hpr (by omega))

theorem exists_first {p : Int} (hp : A p) (hstart : ∃ q, q ≤ p ∧ ¬A q) :
    ∃ first, first ≤ p ∧ (∀ q, first ≤ q → q ≤ p → A q) ∧ ¬A (first - 1) := by
  obtain ⟨q, hqp, hq⟩ := hstart
  obtain ⟨u, hu, -, hup, hnone⟩ := exists_previous (S := fun q => ¬A q) hq hqp
  have hne : p ≠ u := by
    rintro rfl
    contradiction
  refine ⟨u + 1, by omega, ?_, by simpa using hu⟩
  intro r hr hrp
  exact not_not.mp (hnone r (by omega) hrp)

theorem exists_around {p : Int} (hp : A p) (hstart : ∃ q, q ≤ p ∧ ¬A q)
    (hend : ∃ q, p ≤ q ∧ ¬A q) : ∃ first last, first ≤ p ∧ p ≤ last ∧ IsSegment A first last := by
  obtain ⟨first, hfirst, hbelow, hbefore⟩ := exists_first hp hstart
  obtain ⟨last, hlast, habove, hbehind⟩ := exists_last hp hend
  refine ⟨first, last, hfirst, hlast, by omega, ?_, hbefore, hbehind⟩
  intro q hq1 hq2
  by_cases hqp : q ≤ p
  . exact hbelow q hq1 hqp
  . exact habove q (by omega) hq2

end IsSegment

theorem Closed.of_closed_pred {A : Int → Prop} {reach : Nat} {p : Int} (h : Closed A reach p)
    (hpred : ¬Closed A reach (p - 1)) : A p := by
  rcases h with h | ⟨a, b, ha, hb, hab, hleft, hright⟩
  . exact h
  . exfalso
    apply hpred
    by_cases hone : a = 1
    . left
      rw [← hone]
      assumption
    . right
      refine ⟨a - 1, b + 1, by omega, by omega, by omega, ?_, ?_⟩
      . rw [show p - 1 - (a - 1) = p - a by omega]
        assumption
      . rw [show p - 1 + (b + 1) = p + b by omega]
        assumption

theorem Closed.of_closed_succ {A : Int → Prop} {reach : Nat} {p : Int} (h : Closed A reach p)
    (hsucc : ¬Closed A reach (p + 1)) : A p := by
  rcases h with h | ⟨a, b, ha, hb, hab, hleft, hright⟩
  . exact h
  . exfalso
    apply hsucc
    by_cases hone : b = 1
    . left
      rw [← hone]
      assumption
    . right
      refine ⟨a + 1, b - 1, by omega, by omega, by omega, ?_, ?_⟩
      . rw [show p + 1 - (a + 1) = p - a by omega]
        assumption
      . rw [show p + 1 + (b - 1) = p + b by omega]
        assumption

theorem Closed.mono {A B : Int → Prop} {reach : Nat} {p : Int} (hAB : ∀ q, A q → B q)
    (h : Closed A reach p) : Closed B reach p := by
  rcases h with h | ⟨a, b, ha, hb, hab, hleft, hright⟩
  . left
    exact hAB p h
  . right
    exact ⟨a, b, ha, hb, hab, hAB _ hleft, hAB _ hright⟩

theorem closed_of_gap {A : Int → Prop} {reach : Nat} (first last : Int) {p : Int}
    (hfirst : first ≤ p) (hlast : p ≤ last) (hshort : last + 1 - first ≤ reach)
    (hbefore : A (first - 1)) (hbehind : A (last + 1)) : Closed A reach p := by
  right
  refine ⟨p - (first - 1), last + 1 - p, by omega, by omega, by omega, ?_, ?_⟩
  . rw [sub_sub_cancel]
    assumption
  . rw [add_sub_cancel]
    assumption

theorem Closed.exists_gap {A : Int → Prop} {reach : Nat} {p : Int} (h : Closed A reach p)
    (hp : ¬A p) : ∃ first last, first ≤ p ∧ p ≤ last ∧ last + 1 - first ≤ reach ∧
      IsSegment (fun q => ¬A q) first last := by
  rcases h with h | ⟨a, b, ha, hb, hab, hleft, hright⟩
  . contradiction
  . obtain ⟨first, last, hfirst, hlast, hgap⟩ := IsSegment.exists_around (A := fun q => ¬A q) hp
      ⟨p - a, by omega, not_not_intro hleft⟩ ⟨p + b, by omega, not_not_intro hright⟩
    have hafter : p - a < first := by
      by_contra hle
      exact hgap.inside _ (by omega) (by omega) hleft
    have hbefore : last < p + b := by
      by_contra hle
      exact hgap.inside _ (by omega) (by omega) hright
    exact ⟨first, last, hfirst, hlast, by omega, hgap⟩

theorem Closed.exists_before {A : Int → Prop} {reach : Nat} {p a : Int} (ha : 0 < a)
    (h : Closed A reach (p - a)) : Closed A reach p ∨ ∃ b, 0 < b ∧ b ≤ a ∧ A (p - b) := by
  rcases h with h | ⟨c, d, hc, hd, hcd, hleft, hright⟩
  . right
    exact ⟨a, ha, le_refl a, h⟩
  . rcases lt_trichotomy d a with hlt | heq | hgt
    . right
      refine ⟨a - d, by omega, by omega, ?_⟩
      rwa [show p - (a - d) = p - a + d by omega]
    . left
      left
      rwa [heq, sub_add_cancel] at hright
    . left
      apply closed_of_gap (p - a - c + 1) (p - a + d - 1)
      . omega
      . omega
      . omega
      . rwa [add_sub_cancel_right]
      . rwa [sub_add_cancel]

theorem Closed.exists_behind {A : Int → Prop} {reach : Nat} {p a : Int} (ha : 0 < a)
    (h : Closed A reach (p + a)) : Closed A reach p ∨ ∃ b, 0 < b ∧ b ≤ a ∧ A (p + b) := by
  rcases h with h | ⟨c, d, hc, hd, hcd, hleft, hright⟩
  . right
    exact ⟨a, ha, le_refl a, h⟩
  . rcases lt_trichotomy c a with hlt | heq | hgt
    . right
      refine ⟨a - c, by omega, by omega, ?_⟩
      rwa [show p + (a - c) = p + a - c by omega]
    . left
      left
      rwa [heq, add_sub_cancel_right] at hleft
    . left
      apply closed_of_gap (p + a - c + 1) (p + a + d - 1)
      . omega
      . omega
      . omega
      . rwa [add_sub_cancel_right]
      . rwa [sub_add_cancel]

theorem Closed.of_closed {A : Int → Prop} {reach : Nat} {p : Int}
    (h : Closed (Closed A reach) reach p) : Closed A reach p := by
  rcases h with h | ⟨a, b, ha, hb, hab, hleft, hright⟩
  . exact h
  . rcases hleft.exists_before ha with hp | ⟨a', ha', hle, hback⟩
    . exact hp
    . rcases hright.exists_behind hb with hp | ⟨b', hb', hle', hon⟩
      . exact hp
      . right
        exact ⟨a', b', ha', hb', by omega, hback, hon⟩

theorem closed_iff_of_between {A B : Int → Prop} {reach : Nat} (hAB : ∀ p, A p → B p)
    (hBA : ∀ p, B p → Closed A reach p) (p : Int) : Closed B reach p ↔ Closed A reach p := by
  constructor
  . intro h
    exact (h.mono hBA).of_closed
  . intro h
    exact h.mono hAB

/-- Segments of closed positions are farther apart than the gaps that were closed. -/
theorem IsSegment.add_reach_lt {A : Int → Prop} {reach : Nat} {first last first' last' : Int}
    (h : IsSegment (Closed A reach) first last) (h' : IsSegment (Closed A reach) first' last')
    (hlt : first < first') : last + 1 + reach < first' := by
  have hle := h.le
  have hle' := h'.le
  have hbehind : last < first' := by
    by_contra hinside
    exact h'.before (h.inside (first' - 1) (by omega) (by omega))
  have hlast : A last := (h.inside last hle (le_refl _)).of_closed_succ h.behind
  have hfirst : A first' := (h'.inside first' (le_refl _) hle').of_closed_pred h'.before
  by_contra hclose
  apply h.behind
  by_cases hnext : first' = last + 1
  . left
    rwa [← hnext]
  . apply closed_of_gap (last + 1) (first' - 1)
    . omega
    . omega
    . omega
    . rwa [add_sub_cancel_right]
    . rwa [sub_add_cancel]

theorem Covered.start_mem {S : Int → Prop} {length : Nat} {p : Int} (h : Covered S length p)
    (hpred : ¬Covered S length (p - 1)) : S p := by
  obtain ⟨s, hs, hsp, hps⟩ := h
  by_cases heq : s = p
  . rw [← heq]
    assumption
  . exfalso
    apply hpred
    exact ⟨s, hs, by omega, by omega⟩

theorem Covered.end_mem {S : Int → Prop} {length : Nat} {p : Int} (h : Covered S length p)
    (hsucc : ¬Covered S length (p + 1)) : S (p + 1 - length) := by
  obtain ⟨s, hs, hsp, hps⟩ := h
  by_cases heq : s = p + 1 - length
  . rw [← heq]
    assumption
  . exfalso
    apply hsucc
    exact ⟨s, hs, by omega, by omega⟩

section

variable {S : Int → Prop} {length reach : Nat} {first last : Int}

theorem exists_start_before {p : Int} (h : Closed (Covered S length) reach p) :
    ∃ s, S s ∧ s ≤ p ∧ p < s + length + reach := by
  rcases h with ⟨s, hs, hsp, hps⟩ | ⟨a, b, ha, hb, hab, ⟨s, hs, hsp, hps⟩, -⟩
  . exact ⟨s, hs, by omega, by omega⟩
  . exact ⟨s, hs, by omega, by omega⟩

theorem exists_start_behind {p : Int} (h : Closed (Covered S length) reach p) :
    ∃ s, S s ∧ s ≤ p + reach ∧ p < s + length := by
  rcases h with ⟨s, hs, hsp, hps⟩ | ⟨a, b, ha, hb, hab, -, s, hs, hsp, hps⟩
  . exact ⟨s, hs, by omega, by omega⟩
  . exact ⟨s, hs, by omega, by omega⟩

theorem closed_of_between (hlength : 0 < length) {s t p : Int} (hs : S s) (ht : S t)
    (hst : t ≤ s + (length + reach : Nat)) (hsp : s ≤ p) (hpt : p < t + length) :
    Closed (Covered S length) reach p := by
  by_cases hleft : p < s + length
  . left
    exact ⟨s, hs, hsp, hleft⟩
  . by_cases hright : t ≤ p
    . left
      exact ⟨t, ht, hright, hpt⟩
    . right
      refine ⟨p - (s + length - 1), t - p, by omega, by omega, by omega, ?_, ?_⟩
      . exact ⟨s, hs, by omega, by omega⟩
      . exact ⟨t, ht, by omega, by omega⟩

theorem isCluster_of_isSegment (hlength : 0 < length)
    (h : IsSegment (Closed (Covered S length) reach) first last) :
    IsCluster S (length + reach) first (last + 1 - length) := by
  have hfirst : S first := by
    have hle := h.le
    apply Covered.start_mem
    . apply (h.inside first (by omega) (by omega)).of_closed_pred h.before
    . intro hcovered
      exact h.before (.inl hcovered)
  have hlast : S (last + 1 - length) := by
    have hle := h.le
    apply Covered.end_mem
    . apply (h.inside last (by omega) (by omega)).of_closed_succ h.behind
    . intro hcovered
      exact h.behind (.inl hcovered)
  constructor
  . -- the run that starts at `first` does not reach beyond the segment
    by_contra hlt
    apply h.behind
    have := h.le
    left
    exact ⟨first, hfirst, by omega, by omega⟩
  . exact hfirst
  . exact hlast
  . intro s hs hfs hsl
    obtain ⟨t, ht, hts, hst⟩ := exists_start_behind (h.inside (s + length) (by omega) (by omega))
    exact ⟨t, ht, by omega, by push_cast; omega⟩
  . intro s hs hsf
    by_contra hclose
    apply h.before
    apply closed_of_between hlength hs hfirst
    . omega
    . omega
    . omega
  . intro s hs hls
    by_contra hclose
    apply h.behind
    apply closed_of_between hlength hlast hs
    . omega
    . omega
    . omega

theorem isSegment_of_isCluster (hlength : 0 < length)
    (h : IsCluster S (length + reach) first (last + 1 - length)) :
    IsSegment (Closed (Covered S length) reach) first last := by
  have hle := h.le
  constructor
  . omega
  . intro p hfp hpl
    -- the last start that is not behind the position, and the one that follows it
    obtain ⟨s, hs, hfs, hsp, hnone⟩ := exists_previous h.first_mem hfp
    by_cases hend : s < last + 1 - length
    . obtain ⟨t, ht, hst, hts⟩ := h.next s hs hfs hend
      have hpt : p < t := by
        by_contra htp
        exact hnone t hst (by omega) ht
      exact closed_of_between hlength hs ht hts hsp (by omega)
    . left
      exact ⟨s, hs, hsp, by omega⟩
  . intro hclosed
    obtain ⟨s, hs, hsp, hps⟩ := exists_start_before hclosed
    have := h.before s hs (by omega)
    push_cast at this
    omega
  . intro hclosed
    obtain ⟨s, hs, hsp, hps⟩ := exists_start_behind hclosed
    have := h.behind s hs (by omega)
    push_cast at this
    omega

theorem isSegment_closed_covered_iff (hlength : 0 < length) :
    IsSegment (Closed (Covered S length) reach) first last
      ↔ IsCluster S (length + reach) first (last + 1 - length) :=
  ⟨isCluster_of_isSegment hlength, isSegment_of_isCluster hlength⟩

end

end CalendarCode
