import CalendarCode.Proofs.Except

/-!
This module contains programs that are careful with steps that do not always have a result: before
each of them they look whether it has one, and halt with a flaw if it has none. Such a program may
also end early with an error, and an error is a result like any other.
-/

namespace CalendarCode

inductive Flaw where
  /-- A difference below zero. -/
  | negative
  /-- The remainder of a division by zero. -/
  | byZero
  /-- Something at a position that does not exist. -/
  | beyond
  /-- A comparison of two codes that do not have the same size. -/
  | unequal
  deriving DecidableEq

namespace Flaw

variable {β : Type}

def difference (a b : Nat) : Except Flaw Nat :=
  if b ≤ a then .ok (a - b) else .error .negative

def remainder (a b : Nat) : Except Flaw Nat :=
  if b = 0 then .error .byZero else .ok (a % b)

def existing (found : Option β) : Except Flaw β :=
  match found with
  | some b => .ok b
  | none => .error .beyond

theorem difference_eq {a b : Nat} (h : b ≤ a) : difference a b = .ok (a - b) :=
  if_pos h

theorem remainder_eq {a b : Nat} (h : 0 < b) : remainder a b = .ok (a % b) :=
  if_neg (Nat.ne_of_gt h)

theorem existing_eq {found : Option β} {b : β} (h : found = some b) : existing found = .ok b := by
  rw [h]
  rfl

end Flaw

/-- A careful program, which gives a value or ends with an error. -/
abbrev Guarded (ε β : Type) := ExceptT ε (Except Flaw) β

namespace Guarded

variable {ε β γ ι : Type}

theorem run_bind_of_ok {p : Guarded ε β} {f : β → Guarded ε γ} {b : β} (h : p.run = .ok (.ok b)) :
    (p >>= f).run = (f b).run := by
  rw [ExceptT.run_bind]
  rw [h]
  rfl

theorem run_bind_of_error {p : Guarded ε β} {f : β → Guarded ε γ} {e : ε}
    (h : p.run = .ok (.error e)) : (p >>= f).run = .ok (.error e) := by
  rw [ExceptT.run_bind]
  rw [h]
  rfl

theorem run_lift {x : Except Flaw β} {b : β} (h : x = .ok b) :
    (liftM x : Guarded ε β).run = .ok (.ok b) := by
  rw [h]
  rfl

theorem run_map {p : Guarded ε β} {result : Except ε β} (h : p.run = .ok result) (g : β → γ) :
    (g <$> p).run = .ok (result.map g) := by
  rw [ExceptT.run_map]
  rw [h]
  rfl

theorem run_mapM {f : ι → Guarded ε β} {g : ι → Except ε β} {xs : List ι}
    (h : ∀ x ∈ xs, (f x).run = .ok (g x)) : (xs.mapM f).run = .ok (xs.mapM g) := by
  induction xs with
  | nil => rfl
  | cons x xs ih =>
    have hx := h x List.mem_cons_self
    have hxs := ih fun y hy => h y (List.mem_cons_of_mem x hy)
    rw [List.mapM_cons]
    rw [List.mapM_cons]
    cases hg : g x with
    | error e =>
      rw [hg] at hx
      rw [run_bind_of_error hx]
      rfl
    | ok b =>
      rw [hg] at hx
      rw [run_bind_of_ok hx]
      cases hgs : xs.mapM g with
      | error e =>
        rw [hgs] at hxs
        rw [run_bind_of_error hxs]
        rfl
      | ok bs =>
        rw [hgs] at hxs
        rw [run_bind_of_ok hxs]
        rfl

end Guarded

end CalendarCode
