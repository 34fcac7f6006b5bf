/-!
This module contains the machine words that positions are counted with. A number that no word can
hold becomes the closest word, and what arithmetic on words carries beyond them is lost.
-/

namespace CalendarCode.Word

def saturate (n : Nat) : Nat :=
  min n 0xffffffffffffffff

def clamp (i : Int) : Int :=
  max (-0x8000000000000000) (min i 0x7fffffffffffffff)

/-- The signed word that differs from an integer by a multiple of `2 ^ 64`. -/
def wrap (i : Int) : Int :=
  i.bmod 0x10000000000000000

/-- The unsigned word with the bits of a signed one. -/
def unsigned (i : Int) : Nat :=
  (i % 0x10000000000000000).toNat

theorem saturate_of_lt {n : Nat} (h : n < 0x10000000000000000) : saturate n = n := by
  unfold saturate
  omega

theorem clamp_of_lt {i : Int} (hlow : -0x8000000000000000 ≤ i)
    (hhigh : i < 0x8000000000000000) : clamp i = i := by
  unfold clamp
  omega

theorem wrap_of_lt {i : Int} (hlow : -0x8000000000000000 ≤ i)
    (hhigh : i < 0x8000000000000000) : wrap i = i := by
  apply Int.bmod_eq_of_le
  . omega
  . omega

theorem le_wrap (i : Int) : -0x8000000000000000 ≤ wrap i :=
  Int.le_bmod (by decide)

theorem wrap_lt (i : Int) : wrap i < 0x8000000000000000 :=
  Int.bmod_lt (by decide)

theorem wrap_of_le {i : Int} (hlow : 0x8000000000000000 ≤ i) (hhigh : i < 0x18000000000000000) :
    wrap i = i - 0x10000000000000000 := by
  unfold wrap
  rw [← Int.sub_bmod_right]
  apply wrap_of_lt
  . omega
  . omega

theorem unsigned_of_nonneg {i : Int} (hlow : 0 ≤ i) (hhigh : i < 0x10000000000000000) :
    unsigned i = i.toNat := by
  unfold unsigned
  omega

end CalendarCode.Word
