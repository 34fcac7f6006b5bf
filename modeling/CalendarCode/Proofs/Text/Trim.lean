import CalendarCode.Text.Blank
import Mathlib.Data.List.TakeWhile

/-!
This module contains what trimming a text does: it takes away white space at both ends, however much
of it there is, and nothing else. The case of letters has nothing to do with it.
-/

namespace CalendarCode.Text

theorem trimLeft_cons {c : Char} (h : isBlank c = false) (cs : List Char) :
    trimLeft (c :: cs) = c :: cs := by
  apply List.dropWhile_cons_of_neg
  simp [h]

theorem trimLeft_append {before : List Char} (h : ∀ c ∈ before, isBlank c = true)
    (cs : List Char) : trimLeft (before ++ cs) = trimLeft cs :=
  List.dropWhile_append_of_pos h

theorem trimLeft_append_of_ne_nil {cs : List Char} (h : trimLeft cs ≠ []) (after : List Char) :
    trimLeft (cs ++ after) = trimLeft cs ++ after := by
  unfold trimLeft at h ⊢
  rw [List.dropWhile_append]
  rw [if_neg (by rwa [List.isEmpty_iff])]

theorem trim_of_all_blank {cs : List Char} (h : ∀ c ∈ cs, isBlank c = true) : trim cs = [] := by
  unfold trim
  rw [trimLeft_of_all_blank h]
  rfl

theorem trim_append {before after : List Char} (hbefore : ∀ c ∈ before, isBlank c = true)
    (cs : List Char) (hafter : ∀ c ∈ after, isBlank c = true) :
    trim (before ++ cs ++ after) = trim cs := by
  by_cases hcs : ∀ c ∈ cs, isBlank c = true
  . rw [trim_of_all_blank hcs]
    apply trim_of_all_blank
    simp only [List.mem_append]
    rintro c ((hc | hc) | hc)
    . exact hbefore c hc
    . exact hcs c hc
    . exact hafter c hc
  . have hne : trimLeft cs ≠ [] := mt List.dropWhile_eq_nil_iff.mp hcs
    unfold trim
    rw [List.append_assoc]
    rw [trimLeft_append hbefore]
    rw [trimLeft_append_of_ne_nil hne]
    rw [List.reverse_append]
    rw [trimLeft_append (by simpa using hafter)]

structure IsTrimmed (cs : List Char) : Prop where
  first : ∃ c rest, cs = c :: rest ∧ isBlank c = false
  last : ∃ rest c, cs = rest ++ [c] ∧ isBlank c = false

theorem IsTrimmed.ne_nil {cs : List Char} (h : IsTrimmed cs) : cs ≠ [] := by
  obtain ⟨c, rest, hcs, -⟩ := h.first
  rw [hcs]
  exact List.cons_ne_nil c rest

theorem IsTrimmed.append_cons {cs ds : List Char} (hcs : IsTrimmed cs) (c : Char)
    (hds : IsTrimmed ds) : IsTrimmed (cs ++ c :: ds) where
  first := by
    obtain ⟨d, rest, rfl, hd⟩ := hcs.first
    exact ⟨d, rest ++ c :: ds, by simp, hd⟩
  last := by
    obtain ⟨rest, d, rfl, hd⟩ := hds.last
    exact ⟨cs ++ c :: rest, d, by simp, hd⟩

theorem IsTrimmed.trimLeft_append {cs : List Char} (h : IsTrimmed cs) (after : List Char) :
    trimLeft (cs ++ after) = cs ++ after := by
  obtain ⟨c, rest, rfl, hc⟩ := h.first
  exact trimLeft_cons hc (rest ++ after)

theorem IsTrimmed.reverse {cs : List Char} (h : IsTrimmed cs) : IsTrimmed cs.reverse where
  first := by
    obtain ⟨rest, c, rfl, hc⟩ := h.last
    exact ⟨c, rest.reverse, by simp, hc⟩
  last := by
    obtain ⟨c, rest, rfl, hc⟩ := h.first
    exact ⟨rest.reverse, c, by simp, hc⟩

theorem IsTrimmed.trim_eq {cs : List Char} (h : IsTrimmed cs) : trim cs = cs := by
  have hfront := h.trimLeft_append []
  have hback := h.reverse.trimLeft_append []
  rw [List.append_nil] at hfront hback
  unfold trim
  rw [hfront]
  rw [hback]
  rw [List.reverse_reverse]

theorem IsTrimmed.trim_append {before cs after : List Char} (h : IsTrimmed cs)
    (hbefore : ∀ c ∈ before, isBlank c = true) (hafter : ∀ c ∈ after, isBlank c = true) :
    trim (before ++ cs ++ after) = cs := by
  rw [Text.trim_append hbefore cs hafter]
  exact h.trim_eq

theorem exists_trim_append (cs : List Char) : ∃ blanks, trimLeft cs = trim cs ++ blanks := by
  obtain ⟨blanks, hblanks⟩ := List.dropWhile_suffix (l := (trimLeft cs).reverse) isBlank
  refine ⟨blanks.reverse, ?_⟩
  unfold trim
  rw [← List.reverse_append]
  unfold trimLeft at hblanks ⊢
  rw [hblanks]
  rw [List.reverse_reverse]

theorem isBlank_eq_false_of_letter {c : Char}
    (h : 65 ≤ c.toNat ∧ c.toNat ≤ 90 ∨ 97 ≤ c.toNat ∧ c.toNat ≤ 122) : isBlank c = false := by
  simp only [isBlank, Bool.or_eq_false_iff, Bool.and_eq_false_iff, decide_eq_false_iff_not,
    beq_eq_false_iff_ne]
  omega

theorem isBlank_toLower (c : Char) : isBlank c.toLower = isBlank c := by
  unfold Char.toLower
  split
  . next h =>
    simp only [ge_iff_le, UInt32.le_iff_toNat_le] at h
    have hlow : 65 ≤ c.toNat := h.1
    have hhigh : c.toNat ≤ 90 := h.2
    rw [isBlank_eq_false_of_letter (c := c) (by omega)]
    apply isBlank_eq_false_of_letter
    right
    have hlower : (c.val + ('a'.val - 'A'.val)).toNat = c.toNat + 32 := by
      rw [UInt32.toNat_add]
      exact Nat.mod_eq_of_lt (by simp; omega)
    change 97 ≤ (c.val + ('a'.val - 'A'.val)).toNat ∧ (c.val + ('a'.val - 'A'.val)).toNat ≤ 122
    rw [hlower]
    omega
  . rfl

theorem trim_map_toLower (cs : List Char) :
    trim (cs.map Char.toLower) = (trim cs).map Char.toLower := by
  have htrimLeft (cs : List Char) :
      trimLeft (cs.map Char.toLower) = (trimLeft cs).map Char.toLower := by
    unfold trimLeft
    rw [List.dropWhile_map]
    have hcomp : isBlank ∘ Char.toLower = isBlank := funext isBlank_toLower
    rw [hcomp]
  unfold trim
  rw [htrimLeft]
  rw [← List.map_reverse]
  rw [htrimLeft]
  rw [List.map_reverse]

end CalendarCode.Text
