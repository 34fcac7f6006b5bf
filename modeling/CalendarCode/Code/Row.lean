/-!
This module contains rows of positions that lie on a line or close to a circle, and the runs of
active positions in them. `fillHoles` makes short gaps between active positions active, and `runs`
lists the runs that are left.
-/

namespace CalendarCode

/-- Positions that are active or not. On a circle the last one is followed by the first one. -/
structure Row where
  circular : Bool
  bits : Array Bool
  deriving DecidableEq

/-- Neighbouring positions. On a circle a run may go past the last position. -/
structure Run where
  start : Nat
  length : Nat
  deriving DecidableEq

def inRun (circular : Bool) (n : Nat) (start : Int) (length : Nat) (p : Nat) : Bool :=
  let distance := if circular then ((p : Int) - start) % n else (p : Int) - start
  decide (0 ≤ distance) && decide (distance < length)

namespace Row

def size (r : Row) : Nat :=
  r.bits.size

/-- Whether a position is active. There is nothing beyond the ends of a line. -/
def isActive (r : Row) (p : Int) : Bool :=
  if r.circular then r.bits.getD (p % r.size).toNat false
  else if 0 ≤ p then r.bits.getD p.toNat false
  else false

def distanceBack? (r : Row) (reach : Nat) (p : Nat) : Option Nat :=
  (List.range' 1 reach).find? fun d => r.isActive ((p : Int) - d)

def distanceOn? (r : Row) (reach : Nat) (p : Nat) : Option Nat :=
  (List.range' 1 reach).find? fun d => r.isActive ((p : Int) + d)

def inHole (r : Row) (reach : Nat) (p : Nat) : Bool :=
  match r.distanceBack? reach p, r.distanceOn? reach p with
  | some a, some b => decide (a + b ≤ reach + 1)
  | _, _ => false

def fillHoles (r : Row) (reach : Nat) : Row :=
  { r with bits := r.bits.mapIdx fun p active => active || r.inHole reach p }

def isStart (r : Row) (p : Nat) : Bool :=
  r.isActive p && !r.isActive ((p : Int) - 1)

def lengthFrom (r : Row) (p : Nat) : Nat :=
  let bits := r.bits.toList
  let ahead := if r.circular then bits.drop p ++ bits.take p else bits.drop p
  (ahead.takeWhile id).length

/-- The runs in ascending order of their starts. A circle full of active positions is one run. -/
def runs (r : Row) : List Run :=
  if r.circular && r.bits.toList.all id && 0 < r.size then [⟨0, r.size⟩]
  else ((List.range r.size).filter r.isStart).map fun p => ⟨p, r.lengthFrom p⟩

@[simp]
theorem size_fillHoles (r : Row) (reach : Nat) : (r.fillHoles reach).size = r.size := by
  simp [size, fillHoles]

theorem isActive_nat (r : Row) {p : Nat} (h : p < r.size) : r.isActive p = r.bits[p] := by
  have hget : r.bits[p]?.getD false = r.bits[p] := by
    rw [Array.getElem?_eq_getElem h, Option.getD_some]
  have hmod : ((p : Int) % (r.size : Int)).toNat = p := by
    rw [Int.emod_eq_of_lt (by omega) (by omega)]
    omega
  unfold isActive
  split <;> simp_all [size]

example : (fillHoles ⟨false, #[true, false, true, false, false, true]⟩ 1).bits
    = #[true, true, true, false, false, true] := by decide
example : runs ⟨true, #[true, false, true, true, true]⟩ = [⟨2, 4⟩] := by decide

end Row

end CalendarCode
