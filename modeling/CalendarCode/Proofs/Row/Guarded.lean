import CalendarCode.Proofs.Guarded
import CalendarCode.Proofs.Row.Passes

/-!
This module contains careful passes over a row. They look up every position around the end of the
row, also on a line, where no pass ever reaches the end. None of their steps has a flaw, so they
fill the holes of every row.
-/

namespace CalendarCode.Row

open Flaw

def behindGuarded (r : Row) (p d : Nat) : Except Flaw Nat :=
  remainder (p + d) r.size

def isActiveGuarded (r : Row) (p d : Nat) : Except Flaw Bool := do
  let q ← r.behindGuarded p d
  existing r.bits[q]?

def activate (r : Row) (q : Nat) : Row :=
  { r with bits := r.bits.setIfInBounds q true }

def activateGuarded (r : Row) (p d : Nat) : Except Flaw Row := do
  let q ← r.behindGuarded p d
  if q < r.size then return r.activate q else throw .beyond

/-- Looks for a gap of a certain length, and stops at the first position that does not fit. -/
def hasGapGuarded (r : Row) (gap p : Nat) : Except Flaw Bool := do
  let last ← difference (gap + 2) 1
  if ← r.isActiveGuarded p 0 then
    if ← r.isActiveGuarded p last then
      (List.range' 1 gap).allM fun d => return !(← r.isActiveGuarded p d)
    else
      return false
  else
    return false

def fillGapGuarded (r : Row) (gap p : Nat) : Except Flaw Row := do
  if ← r.hasGapGuarded gap p then
    (List.range (gap + 2)).foldlM (fun r d => r.activateGuarded p d) r
  else
    return r

def startsGuarded (r : Row) (gap : Nat) : Except Flaw Nat :=
  if r.circular then
    return r.size
  else if gap + 2 ≤ r.size then do
    let others ← difference r.size (gap + 2)
    return others + 1
  else
    return 0

def fillGapsGuarded (r : Row) (gap : Nat) : Except Flaw Row := do
  let starts ← r.startsGuarded gap
  (List.range starts).foldlM (fun r p => r.fillGapGuarded gap p) r

def fillPassesGuarded (r : Row) (reach : Nat) : Except Flaw Row :=
  (List.range' 1 reach).foldlM fillGapsGuarded r

def Reaches (r : Row) (p d : Nat) : Prop :=
  if r.circular then 0 < r.size else p + d < r.size

variable {r : Row} {gap reach p d : Nat}

theorem Reaches.size_pos (h : r.Reaches p d) : 0 < r.size := by
  unfold Reaches at h
  split at h
  . exact h
  . omega

theorem Reaches.mono (h : r.Reaches p d) {d' : Nat} (hle : d' ≤ d) : r.Reaches p d' := by
  unfold Reaches at h ⊢
  split
  . next hc =>
    rw [if_pos hc] at h
    exact h
  . next hc =>
    rw [if_neg hc] at h
    omega

theorem Reaches.behindGuarded_eq (h : r.Reaches p d) :
    r.behindGuarded p d = .ok ((p + d) % r.size) :=
  remainder_eq h.size_pos

theorem Reaches.mod_lt (h : r.Reaches p d) : (p + d) % r.size < r.size :=
  Nat.mod_lt _ h.size_pos

theorem Reaches.eq_mod_iff (h : r.Reaches p d) {q : Nat} (hq : q < r.size) :
    q = (p + d) % r.size ↔ r.Same q (p + d : Nat) := by
  unfold Reaches at h
  cases hc : r.circular with
  | false =>
    rw [if_neg (by simp [hc])] at h
    rw [same_of_line hc]
    rw [Nat.mod_eq_of_lt h]
    omega
  | true =>
    rw [same_of_circle hc]
    rw [← Int.natCast_mod]
    rw [← Int.natCast_mod]
    rw [Nat.mod_eq_of_lt hq]
    omega

theorem isActiveGuarded_eq (h : r.Reaches p d) :
    r.isActiveGuarded p d = .ok (r.isActive ((p + d : Nat) : Int)) := by
  have hlt := h.mod_lt
  have hbit : r.bits[(p + d) % r.size]? = some (r.isActive ((p + d : Nat) : Int)) := by
    rw [Array.getElem?_eq_getElem hlt]
    rw [← isActive_nat r hlt]
    congr 1
    exact Bool.eq_iff_iff.mpr ((h.eq_mod_iff hlt).mp rfl).active_iff
  unfold isActiveGuarded
  rw [h.behindGuarded_eq]
  exact existing_eq hbit

theorem hasGapGuarded_eq (h : r.Reaches p (gap + 1)) :
    r.hasGapGuarded gap p = .ok (r.hasGap gap p) := by
  have hnone : ((List.range' 1 gap).allM fun d => do return !(← r.isActiveGuarded p d))
      = .ok ((List.range' 1 gap).all fun (d : Nat) => !r.isActive ((p + d : Nat) : Int)) := by
    apply allM_eq_ok_all
    intro d hd
    rw [List.mem_range'_1] at hd
    rw [isActiveGuarded_eq (h.mono (by omega))]
    rfl
  have hfirst := isActiveGuarded_eq (h.mono (Nat.zero_le _))
  have hlast : r.isActiveGuarded p (gap + 2 - 1) = _ := isActiveGuarded_eq h
  unfold hasGapGuarded hasGap
  rw [difference_eq (by omega)]
  rw [ok_bind]
  rw [hfirst]
  rw [ok_bind]
  rw [hlast]
  rw [hnone]
  push_cast
  rw [add_zero]
  rw [add_assoc]
  cases r.isActive p with
  | false => rfl
  | true =>
    cases r.isActive (p + (gap + 1)) with
    | false => rfl
    | true => rfl

def activateRun (r : Row) (p length : Nat) : Row :=
  { r with bits := r.bits.mapIdx fun q active => active || inRun r.circular r.size p length q }

theorem fillGap_eq (r : Row) (gap p : Nat) :
    r.fillGap gap p = if r.hasGap gap p then r.activateRun p (gap + 2) else r := rfl

@[simp]
theorem size_activateRun (r : Row) (p length : Nat) : (r.activateRun p length).size = r.size := by
  simp [size, activateRun]

theorem active_activateRun {length q : Nat} (hq : q < r.size) :
    (r.activateRun p length).Active q ↔ r.Active q ∨ ∃ d < length, r.Same q (p + d : Nat) := by
  have hq' : q < (r.activateRun p length).size := by simpa using hq
  rw [active_nat hq']
  rw [active_nat hq]
  rw [← inRun_iff_exists_same hq]
  simp only [activateRun, Array.getElem_mapIdx, Bool.or_eq_true]
  rfl

theorem activateRun_zero (r : Row) (p : Nat) : r.activateRun p 0 = r := by
  apply eq_of_active
  . rfl
  . exact size_activateRun r p 0
  . intro q hq
    rw [size_activateRun] at hq
    rw [active_activateRun hq]
    simp

theorem active_activate {p q : Nat} (hq : q < r.size) :
    (r.activate p).Active q ↔ q = p ∨ r.Active q := by
  have hq' : q < (r.activate p).size := by simpa [size, activate] using hq
  rw [active_nat hq']
  rw [active_nat hq]
  have hget : (r.activate p).bits[q] = if p = q then true else r.bits[q] :=
    Array.getElem_setIfInBounds hq
  rw [hget]
  split
  . next h => simp [h]
  . next h => simp [Ne.symm h]

theorem activate_activateRun (h : r.Reaches p d) :
    (r.activateRun p d).activate ((p + d) % r.size) = r.activateRun p (d + 1) := by
  apply eq_of_active
  . rfl
  . simp [size, activate, activateRun]
  . intro q hq
    have hq : q < r.size := by simpa [size, activate, activateRun] using hq
    rw [active_activate (by simpa using hq)]
    rw [active_activateRun hq]
    rw [active_activateRun hq]
    rw [h.eq_mod_iff hq]
    constructor
    . rintro (hsame | hactive | ⟨d', hd', hsame⟩)
      . right
        exact ⟨d, Nat.lt_succ_self d, hsame⟩
      . left
        exact hactive
      . right
        exact ⟨d', Nat.lt_succ_of_lt hd', hsame⟩
    . rintro (hactive | ⟨d', hd', hsame⟩)
      . right
        left
        exact hactive
      . by_cases hlast : d' = d
        . left
          rwa [← hlast]
        . right
          right
          exact ⟨d', by omega, hsame⟩

theorem activateGuarded_activateRun (h : r.Reaches p d) :
    (r.activateRun p d).activateGuarded p d = .ok (r.activateRun p (d + 1)) := by
  unfold activateGuarded behindGuarded
  rw [size_activateRun]
  rw [remainder_eq h.size_pos]
  rw [ok_bind]
  rw [if_pos h.mod_lt]
  rw [activate_activateRun h]
  rfl

theorem foldlM_activateGuarded {length : Nat} (h : ∀ d < length, r.Reaches p d) :
    (List.range length).foldlM (fun r d => r.activateGuarded p d) r
      = .ok (r.activateRun p length) := by
  induction length with
  | zero =>
    rw [activateRun_zero]
    rfl
  | succ length ih =>
    rw [List.range_succ]
    rw [List.foldlM_append]
    rw [ih fun d hd => h d (by omega)]
    rw [ok_bind]
    rw [List.foldlM_cons]
    rw [activateGuarded_activateRun (h length (by omega))]
    rfl

theorem fillGapGuarded_eq (h : r.Reaches p (gap + 1)) :
    r.fillGapGuarded gap p = .ok (r.fillGap gap p) := by
  unfold fillGapGuarded
  rw [hasGapGuarded_eq h]
  rw [fillGap_eq]
  rw [ok_bind]
  split
  . exact foldlM_activateGuarded fun d hd => h.mono (by omega)
  . rfl

theorem startsGuarded_eq (r : Row) (gap : Nat) :
    r.startsGuarded gap = .ok (if r.circular then r.size else r.size + 1 - (gap + 2)) := by
  unfold startsGuarded
  split
  . rfl
  . split
    . next hle =>
      rw [difference_eq hle]
      rw [ok_bind]
      have hcount : r.size - (gap + 2) + 1 = r.size + 1 - (gap + 2) := by omega
      exact congrArg Except.ok hcount
    . next hlt =>
      have hcount : 0 = r.size + 1 - (gap + 2) := by omega
      exact congrArg Except.ok hcount

theorem fillGapsGuarded_eq (r : Row) (gap : Nat) :
    r.fillGapsGuarded gap = .ok (r.fillGaps gap) := by
  unfold fillGapsGuarded
  rw [startsGuarded_eq]
  rw [ok_bind]
  rw [fillGaps_eq]
  apply foldlM_eq_ok_foldl (P := fun s => s.circular = r.circular ∧ s.size = r.size)
  . intro p hp s hs
    have hreaches : s.Reaches p (gap + 1) := by
      rw [List.mem_range] at hp
      unfold Reaches
      rw [hs.1, hs.2]
      split at hp
      . next hc =>
        rw [if_pos hc]
        omega
      . next hc =>
        rw [if_neg hc]
        omega
    refine ⟨fillGapGuarded_eq hreaches, ?_⟩
    rw [circular_fillGap]
    rw [size_fillGap]
    exact hs
  . exact ⟨rfl, rfl⟩

theorem fillPassesGuarded_eq (r : Row) (reach : Nat) :
    r.fillPassesGuarded reach = .ok (r.fillHoles reach) := by
  rw [← fillPasses_eq_fillHoles]
  apply foldlM_eq_ok_foldl (P := fun _ => True)
  . intro gap _ s _
    exact ⟨fillGapsGuarded_eq s gap, trivial⟩
  . trivial

end CalendarCode.Row
