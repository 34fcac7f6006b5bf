import CalendarCode.Calendar.Timestamp
import CalendarCode.Proofs.Text.Trim
import Mathlib.Tactic.IntervalCases
import Mathlib.Tactic.Ring

/-!
This module contains numbers that are written with a given number of digits, and how they are read
back from the start of a text.
-/

namespace CalendarCode

namespace Decimal

/-- The last digits of a number, with zeros in front if the number has fewer of them. -/
def padded : Nat → Nat → List Char
  | 0, _ => []
  | k + 1, n => padded k (n / 10) ++ [Nat.digitChar (n % 10)]

@[simp]
theorem length_padded (k n : Nat) : (padded k n).length = k := by
  induction k generalizing n with
  | zero => rfl
  | succ k ih =>
    rw [padded]
    rw [List.length_append]
    rw [ih]
    rfl

theorem padded_ne_nil {k : Nat} (h : 0 < k) (n : Nat) : padded k n ≠ [] := by
  apply List.ne_nil_of_length_pos
  rw [length_padded]
  exact h

theorem isDigit_digitChar {n : Nat} (h : n < 10) : (Nat.digitChar n).isDigit = true := by
  interval_cases n
  all_goals decide

theorem digitValue_digitChar {n : Nat} (h : n < 10) : digitValue (Nat.digitChar n) = n := by
  interval_cases n
  all_goals decide

theorem isDigit_of_mem_padded {k n : Nat} {c : Char} (h : c ∈ padded k n) :
    c.isDigit = true := by
  induction k generalizing n with
  | zero => simp [padded] at h
  | succ k ih =>
    rw [padded] at h
    cases List.mem_append.mp h with
    | inl hfront => exact ih hfront
    | inr hlast =>
      rw [List.mem_singleton.mp hlast]
      exact isDigit_digitChar (Nat.mod_lt n (by decide))

theorem valueOf_concat (ds : List Char) (c : Char) :
    valueOf (ds ++ [c]) = 10 * valueOf ds + digitValue c := by
  simp only [valueOf, List.foldl_append, List.foldl_cons, List.foldl_nil]

theorem valueOf_append_zeros (ds : List Char) (k : Nat) :
    valueOf (ds ++ List.replicate k '0') = valueOf ds * 10 ^ k := by
  induction k with
  | zero => simp
  | succ k ih =>
    rw [List.replicate_succ']
    rw [← List.append_assoc]
    rw [valueOf_concat]
    rw [ih]
    have hzero : digitValue '0' = 0 := by decide
    rw [hzero]
    ring

theorem valueOf_padded {k n : Nat} (h : n < 10 ^ k) : valueOf (padded k n) = n := by
  induction k generalizing n with
  | zero =>
    have hn : n = 0 := by simpa using h
    rw [hn]
    rfl
  | succ k ih =>
    rw [padded]
    rw [valueOf_concat]
    rw [digitValue_digitChar (Nat.mod_lt n (by decide))]
    rw [ih (by omega)]
    omega

theorem leading?_append {ds rest : List Char} (hne : ds ≠ []) (hdigits : ∀ c ∈ ds, c.isDigit = true)
    (hrest : rest.takeWhile Char.isDigit = []) : leading? (ds ++ rest) = some (ds, rest) := by
  rw [leading?_eq_some_iff]
  refine ⟨hne, ?_, ?_⟩
  . rw [List.takeWhile_append_of_pos hdigits]
    rw [hrest]
    rw [List.append_nil]
  . rw [List.dropWhile_append_of_pos hdigits]
    have hsplit := List.takeWhile_append_dropWhile (p := Char.isDigit) (l := rest)
    rw [hrest] at hsplit
    exact hsplit.symm

theorem leading?_padded {k : Nat} (h : 0 < k) (n : Nat) :
    leading? (padded k n) = some (padded k n, []) := by
  have happend := leading?_append (padded_ne_nil h n) (fun c => isDigit_of_mem_padded)
    (List.takeWhile_nil)
  rw [List.append_nil] at happend
  exact happend

end Decimal

namespace Text

theorem isBlank_of_isDigit {c : Char} (h : c.isDigit = true) : isBlank c = false := by
  simp only [Char.isDigit, ge_iff_le, Bool.and_eq_true, decide_eq_true_eq, UInt32.le_iff_toNat_le]
    at h
  have hlow : 48 ≤ c.toNat := h.1
  have hhigh : c.toNat ≤ 57 := h.2
  simp only [isBlank, Bool.or_eq_false_iff, Bool.and_eq_false_iff, decide_eq_false_iff_not,
    beq_eq_false_iff_ne]
  omega

theorem isTrimmed_padded {k : Nat} (h : 0 < k) (n : Nat) :
    IsTrimmed (Decimal.padded k n) where
  first := by
    obtain ⟨c, rest, hcs⟩ := List.exists_cons_of_ne_nil (Decimal.padded_ne_nil h n)
    refine ⟨c, rest, hcs, ?_⟩
    apply isBlank_of_isDigit
    apply Decimal.isDigit_of_mem_padded (k := k) (n := n)
    simp [hcs]
  last := by
    obtain ⟨k, rfl⟩ := Nat.exists_eq_succ_of_ne_zero (Nat.ne_of_gt h)
    refine ⟨_, _, rfl, ?_⟩
    exact isBlank_of_isDigit (Decimal.isDigit_digitChar (Nat.mod_lt n (by decide)))

end Text

namespace Timestamp

open Decimal Text

theorem number?_padded {k n : Nat} (hk : 0 < k) (h : n < 10 ^ k)
    (rest : List Char) :
    number? k (trimLeft (padded k n ++ rest)) = some (n, rest) := by
  rw [(isTrimmed_padded hk n).trimLeft_append]
  unfold number?
  rw [List.take_left' (length_padded k n)]
  rw [leading?_padded hk]
  simp only [Option.bind_eq_bind, Option.bind_some, Option.pure_def]
  rw [valueOf_padded h]
  rw [List.drop_left]

theorem number?_eq_none {c : Char} (h : c.isDigit = false) {most : Nat} (cs : List Char) :
    number? most (c :: cs) = none := by
  cases most with
  | zero => rfl
  | succ most => simp [number?, leading?, h]

theorem signedYear?_padded {year : Nat} (h : year < 10000) (rest : List Char) :
    signedYear? (trimLeft (padded 4 year ++ rest)) = some ((year : Int), rest) := by
  have hnumber := number?_padded (k := 4) (by decide) h rest
  rw [(isTrimmed_padded (by decide) year).trimLeft_append] at hnumber ⊢
  obtain ⟨c, ds, hcs⟩ := List.exists_cons_of_ne_nil (padded_ne_nil (k := 4) (by decide) year)
  have hdigit : c.isDigit = true :=
    isDigit_of_mem_padded (k := 4) (n := year) (by simp [hcs])
  unfold signedYear?
  -- a digit is not a sign
  split
  . next hsign =>
    rw [hcs, List.cons_append, List.cons.injEq] at hsign
    rw [hsign.1] at hdigit
    exact absurd hdigit (by decide)
  . next hsign =>
    rw [hcs, List.cons_append, List.cons.injEq] at hsign
    rw [hsign.1] at hdigit
    exact absurd hdigit (by decide)
  . rw [hnumber]
    rfl

theorem nanos_padded {k n : Nat} (hk : k ≤ 9) (h : n < 10 ^ k) :
    nanos (padded k n) = n * 10 ^ (9 - k) := by
  unfold nanos
  rw [List.take_append]
  rw [length_padded]
  rw [List.take_of_length_le (by simpa using hk)]
  rw [List.take_replicate]
  rw [Nat.min_eq_left (Nat.sub_le 9 k)]
  rw [valueOf_append_zeros]
  rw [valueOf_padded h]

end Timestamp

end CalendarCode
