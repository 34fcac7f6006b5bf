/-!
This module contains white space: the twenty-five characters with the Unicode property
`White_Space`.
-/

namespace CalendarCode.Text

def isBlank (c : Char) : Bool :=
  let n := c.toNat
  (0x9 ≤ n && n ≤ 0xd) || n == 0x20 || n == 0x85 || n == 0xa0 || n == 0x1680
    || (0x2000 ≤ n && n ≤ 0x200a) || n == 0x2028 || n == 0x2029 || n == 0x202f || n == 0x205f
    || n == 0x3000

def trimLeft (cs : List Char) : List Char :=
  cs.dropWhile isBlank

def trim (cs : List Char) : List Char :=
  (trimLeft (trimLeft cs).reverse).reverse

theorem trimLeft_of_all_blank {cs : List Char} (h : ∀ c ∈ cs, isBlank c = true) :
    trimLeft cs = [] := by
  induction cs with
  | nil => rfl
  | cons c cs ih =>
    rw [trimLeft, List.dropWhile_cons_of_pos (h c (by simp))]
    exact ih fun d hd => h d (by simp [hd])

example : trim [' ', '\t', 'a', ' ', 'b', '\n'] = ['a', ' ', 'b'] := by decide

end CalendarCode.Text
