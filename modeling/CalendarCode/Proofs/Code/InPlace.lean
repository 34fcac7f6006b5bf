import CalendarCode.Code.Basic
import CalendarCode.Error

/-!
This module contains programs that work on a code in place, one step after the other. A program may
halt, and then the code stays as the steps before have left it. Whoever works on a part of a code
halts unless the whole part exists.
-/

namespace CalendarCode

inductive Halt (α : Type) where
  | error (e : Error α)
  | beyond

abbrev InPlace (α β : Type) := ExceptT (Halt α) (StateM Code) β

namespace InPlace

variable {α β γ : Type}

def exec (p : InPlace α β) (code : Code) : Except (Halt α) β × Code :=
  (p.run.run code).run

def checkSize (n : Nat) : InPlace α Unit := do
  let code ← get
  if code.size = n then
    return ()
  else
    throw (.error (.size n code.size))

def within (start n : Nat) (p : InPlace α β) : InPlace α β := do
  let code ← get
  if start + n ≤ code.size then
    let (result, part) := p.exec (code.slice start n)
    set (code.splice start part)
    MonadExcept.ofExcept result
  else
    throw .beyond

@[simp]
theorem exec_pure (b : β) (code : Code) : (pure b : InPlace α β).exec code = (.ok b, code) := rfl

@[simp]
theorem exec_get (code : Code) : (get : InPlace α Code).exec code = (.ok code, code) := rfl

@[simp]
theorem exec_set (part code : Code) : (set part : InPlace α Unit).exec code = (.ok (), part) := rfl

@[simp]
theorem exec_modify (f : Code → Code) (code : Code) :
    (modify f : InPlace α Unit).exec code = (.ok (), f code) := rfl

@[simp]
theorem exec_throw (e : Halt α) (code : Code) :
    (throw e : InPlace α β).exec code = (.error e, code) := rfl

@[simp]
theorem exec_ofExcept (result : Except (Halt α) β) (code : Code) :
    (MonadExcept.ofExcept result : InPlace α β).exec code = (result, code) := by
  cases result <;> rfl

theorem exec_bind_of_ok {p : InPlace α β} {f : β → InPlace α γ} {code after : Code} {b : β}
    (h : p.exec code = (.ok b, after)) : (p >>= f).exec code = (f b).exec after := by
  unfold exec at h ⊢
  simp only [ExceptT.run_bind, StateT.run_bind, Id.run_bind]
  rw [h]

theorem exec_bind_of_error {p : InPlace α β} {f : β → InPlace α γ} {code after : Code}
    {e : Halt α} (h : p.exec code = (.error e, after)) :
    (p >>= f).exec code = (.error e, after) := by
  unfold exec at h ⊢
  simp only [ExceptT.run_bind, StateT.run_bind, Id.run_bind]
  rw [h]
  rfl

theorem exec_checkSize {n : Nat} {code : Code} (h : code.size = n) :
    (checkSize n : InPlace α Unit).exec code = (.ok (), code) := by
  unfold checkSize
  rw [exec_bind_of_ok (exec_get code)]
  rw [if_pos h]
  rfl

theorem exec_checkSize_of_ne {n : Nat} {code : Code} (h : code.size ≠ n) :
    (checkSize n : InPlace α Unit).exec code = (.error (.error (.size n code.size)), code) := by
  unfold checkSize
  rw [exec_bind_of_ok (exec_get code)]
  rw [if_neg h]
  exact exec_throw _ code

theorem exec_within {start n : Nat} {code part : Code} {p : InPlace α β}
    {result : Except (Halt α) β} (h : start + n ≤ code.size)
    (hp : p.exec (code.slice start n) = (result, part)) :
    (within start n p).exec code = (result, code.splice start part) := by
  unfold within
  rw [exec_bind_of_ok (exec_get code)]
  rw [if_pos h]
  rw [hp]
  simp only
  rw [exec_bind_of_ok (exec_set _ code)]
  rw [exec_ofExcept]

theorem exec_forM {ι : Type} {P : Code → Prop} {f : ι → InPlace α Unit}
    {step : Code → ι → Code} {xs : List ι} {code : Code}
    (hstep : ∀ x ∈ xs, ∀ c, P c → (f x).exec c = (.ok (), step c x) ∧ P (step c x))
    (h : P code) : (xs.forM f).exec code = (.ok (), xs.foldl step code) := by
  induction xs generalizing code with
  | nil => rfl
  | cons x xs ih =>
    obtain ⟨hx, hkeeps⟩ := hstep x List.mem_cons_self code h
    rw [List.forM_eq_forM]
    rw [List.forM_cons]
    rw [exec_bind_of_ok hx]
    rw [List.foldl_cons]
    exact ih (fun y hy => hstep y (List.mem_cons_of_mem x hy)) hkeeps

theorem exec_mapM {ι : Type} {f : ι → InPlace α β} {g : ι → Except (Halt α) β} {xs : List ι}
    {code : Code} (h : ∀ x ∈ xs, (f x).exec code = (g x, code)) :
    (xs.mapM f).exec code = (xs.mapM g, code) := by
  induction xs with
  | nil => rfl
  | cons x xs ih =>
    have hx := h x List.mem_cons_self
    have hxs := ih fun y hy => h y (List.mem_cons_of_mem x hy)
    rw [List.mapM_cons]
    rw [List.mapM_cons]
    cases hg : g x with
    | error e =>
      rw [hg] at hx
      rw [exec_bind_of_error hx]
      rfl
    | ok b =>
      rw [hg] at hx
      rw [exec_bind_of_ok hx]
      cases hgs : xs.mapM g with
      | error e =>
        rw [hgs] at hxs
        rw [exec_bind_of_error hxs]
        rfl
      | ok bs =>
        rw [hgs] at hxs
        rw [exec_bind_of_ok hxs]
        rfl

end InPlace

end CalendarCode
