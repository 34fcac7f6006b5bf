import CalendarCode.Arith.Basic
import CalendarCode.Code.Basic

/-!
This module contains three measures of how alike two codes are. They only look at which positions
are active.
-/

namespace CalendarCode

inductive Metric where
  | overlap
  | hamming
  | jaccard
  deriving DecidableEq

namespace Code

def countWith (f : Bool → Bool → Bool) (a b : Code) : Nat :=
  (List.zipWith f a.activity b.activity).count true

def overlap (a b : Code) : Nat :=
  countWith and a b

def unionCount (a b : Code) : Nat :=
  countWith or a b

def agreement (a b : Code) : Nat :=
  countWith (· == ·) a b

variable {α : Type} [Arith α]

/-- The share of the positions on which two codes agree; codes without positions agree. -/
def hamming (a b : Code) : α :=
  if a.size = 0 then Arith.ofNat 1
  else Arith.ofNat (agreement a b) / Arith.ofNat a.size

/-- The share of the common active positions among all active ones; zero if there are none. -/
def jaccard (a b : Code) : α :=
  if unionCount a b = 0 then Arith.ofNat 0
  else Arith.ofNat (overlap a b) / Arith.ofNat (unionCount a b)

def measure? (m : Metric) (a b : Code) : Option α :=
  if a.size = b.size then
    match m with
    | .overlap => some (Arith.ofNat (overlap a b))
    | .hamming => some (hamming a b)
    | .jaccard => some (jaccard a b)
  else none

theorem countWith_comm {f : Bool → Bool → Bool} (hf : ∀ x y, f x y = f y x) (a b : Code) :
    countWith f a b = countWith f b a := by
  rw [countWith, countWith, List.zipWith_comm]
  simp only [hf]

theorem overlap_comm (a b : Code) : overlap a b = overlap b a :=
  countWith_comm Bool.and_comm a b

end Code

end CalendarCode
