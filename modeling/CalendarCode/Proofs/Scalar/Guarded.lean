import CalendarCode.Proofs.Row.Guarded
import CalendarCode.Proofs.Row.Join
import CalendarCode.Proofs.Scalar.Construction
import CalendarCode.Scalar.Decode

/-!
This module contains careful programs that count the positions of a codec, read a code, and match it
with a bucket. None of their steps has a flaw, whatever the code holds.
-/

namespace CalendarCode

open Flaw

def Code.overlapGuarded (a b : Code) : Except Flaw Nat :=
  if a.size = b.size then .ok (a.overlap b) else .error .unequal

structure Sizes where
  halfwidth : Nat
  padding : Nat
  size : Nat
  innerSize : Nat
  deriving DecidableEq

namespace ScalarConfig

variable {α : Type} [Arith α] (c : ScalarConfig α)

def sizes : Sizes :=
  ⟨c.halfwidth, c.padding, c.size, c.innerSize⟩

def paddingFor (halfwidth : Nat) : Nat :=
  if c.periodic then 0 else halfwidth

def sizeFor (padding : Nat) : Nat :=
  Word.saturate <|
    Arith.ceil (Arith.ofNat c.width * (c.range / c.radius) + Arith.ofNat 2 * Arith.ofNat padding)

def sizesGuarded : Guarded (ConfigFault α) Sizes :=
  if c.width % 2 = 1 then
    if c.low < c.high ∧ Arith.isFinite c.low = true ∧ Arith.isFinite c.high = true then
      if Arith.ofNat 0 < c.radius ∧ Arith.isFinite c.radius = true then do
        let sides ← difference c.width 1
        let halfwidth := sides / 2
        let padding := c.paddingFor halfwidth
        let size := c.sizeFor padding
        if c.width < size then
          let innerSize ← difference size (2 * padding)
          if c.Fits then
            return ⟨halfwidth, padding, size, innerSize⟩
          else
            throw .tooLarge
        else
          throw (.noRoom size c.width)
      else
        throw (.badRadius c.radius)
    else
      throw (.emptyDomain c.low c.high)
  else
    throw (.evenWidth c.width)

theorem run_sizesGuarded :
    c.sizesGuarded.run = .ok ((ScalarCodec.build c).map fun k => k.sizes) := by
  unfold sizesGuarded ScalarCodec.build
  split
  . next hodd =>
    split
    . next hdomain =>
      split
      . next hradius =>
        have hsize : c.sizeFor (c.paddingFor ((c.width - 1) / 2)) = c.size := rfl
        rw [Guarded.run_bind_of_ok (Guarded.run_lift (difference_eq (by omega)))]
        dsimp only
        by_cases hroom : c.width < c.size
        . -- the padding of a codec leaves some of its positions
          have hpadding : 2 * c.paddingFor ((c.width - 1) / 2) <
              c.sizeFor (c.paddingFor ((c.width - 1) / 2)) :=
            two_mul_padding_lt hodd hroom
          rw [dif_pos hroom]
          rw [← hsize] at hroom
          rw [if_pos hroom]
          rw [Guarded.run_bind_of_ok (Guarded.run_lift (difference_eq (le_of_lt hpadding)))]
          by_cases hfits : c.Fits
          . rw [dif_pos hfits]
            rw [if_pos hfits]
            rfl
          . rw [dif_neg hfits]
            rw [if_neg hfits]
            rfl
        . rw [dif_neg hroom]
          rw [← hsize] at hroom
          rw [if_neg hroom]
          rfl
      . rfl
    . rfl
  . rfl

end ScalarConfig

namespace ScalarCodec

variable {α : Type} [Arith α] (k : ScalarCodec α)

def rangesFrom (centers : Nat × Nat) : List (α × α) :=
  let first := k.valueAt centers.1
  let last := k.valueAt centers.2
  let beyond := k.periodic && decide (k.high ≤ first)
  let first := Arith.larger (if beyond then first - k.range else first) k.low
  let last := Arith.larger (if beyond then last - k.range else last) k.low
  if k.periodic && decide (k.high ≤ last) then [(first, k.high), (k.low, last - k.range)]
  else [(Arith.smaller first k.high, Arith.smaller last k.high)]

theorem rangesOf_eq (run : Run) : k.rangesOf run = k.rangesFrom (k.centers run) := rfl

def centersGuarded (run : Run) : Except Flaw (Nat × Nat) :=
  if run.length ≤ k.width then
    let middle := run.start + run.length / 2
    return (middle, middle)
  else do
    let last ← difference (run.start + run.length) 1
    let right ← difference last k.halfwidth
    return (run.start + k.halfwidth, right)

def rangesGuarded (run : Run) : Except Flaw (List (α × α)) := do
  let centers ← k.centersGuarded run
  return k.rangesFrom centers

def readGuarded (code : Code) : Except Flaw (Option (Decoded α)) :=
  if code.activity.any id then do
    let filled ← (k.row code).fillPassesGuarded k.halfwidth
    let runs ← filled.runsGuarded
    let ranges ← runs.mapM k.rangesGuarded
    return some ⟨ranges.flatten⟩
  else
    return none

theorem centersGuarded_eq (run : Run) : k.centersGuarded run = .ok (k.centers run) := by
  have hwidth := k.width_eq
  unfold centersGuarded centers
  split
  . rfl
  . next hlong =>
    rw [difference_eq (by omega)]
    rw [ok_bind]
    rw [difference_eq (by omega)]
    rfl

theorem rangesGuarded_eq (run : Run) : k.rangesGuarded run = .ok (k.rangesOf run) := by
  unfold rangesGuarded
  rw [centersGuarded_eq]
  rw [rangesOf_eq]
  rfl

theorem readGuarded_eq (code : Code) : k.readGuarded code = .ok (k.read code) := by
  unfold readGuarded read
  split
  . rw [Row.fillPassesGuarded_eq]
    rw [ok_bind]
    rw [Row.runsGuarded_eq]
    rw [ok_bind]
    rw [mapM_eq_ok_map fun run _ => k.rangesGuarded_eq run]
    rw [ok_bind]
    rw [List.flatMap_def]
    rfl
  . rfl

def bucketCodes : List Code :=
  k.bucketValues.map fun v => k.encode (Arith.clamp k.low k.high v)

def betterGuarded (code : Code) (best : Nat × Nat) (entry : Code × Nat) :
    Except Flaw (Nat × Nat) := do
  let s ← entry.1.overlapGuarded code
  return if best.2 < s then (entry.2, s) else best

def bestGuarded (code : Code) : Except Flaw Nat := do
  let best ← k.bucketCodes.zipIdx.foldlM (betterGuarded code) (0, 0)
  return best.1

theorem bucketCodes_eq : k.bucketCodes = (List.range k.bucketCount).map k.bucketCode := by
  unfold bucketCodes bucketValues
  rw [List.map_map]
  rfl

theorem zipIdx_bucketCodes :
    k.bucketCodes.zipIdx = (List.range k.bucketCount).map fun i => (k.bucketCode i, i) := by
  rw [bucketCodes_eq]
  apply List.ext_getElem
  . simp
  . intro i _ _
    simp

theorem bestGuarded_eq {code : Code} (h : code.size = k.size) :
    k.bestGuarded code = .ok (k.bestBucket code) := by
  unfold bestGuarded
  rw [zipIdx_bucketCodes]
  rw [List.foldlM_map]
  rw [foldlM_eq_ok_foldl (P := fun _ => True) (g := fun best i =>
    if best.2 < (k.bucketCode i).overlap code then (i, (k.bucketCode i).overlap code) else best)]
  . rfl
  . intro i _ best _
    have hsize : (k.bucketCode i).size = code.size := by
      rw [h]
      exact k.size_encode _
    refine ⟨?_, trivial⟩
    unfold betterGuarded Code.overlapGuarded
    rw [if_pos hsize]
    rfl
  . trivial

def decodeGuarded (code : Code) : Guarded (Error α) (Option (Decoded α)) :=
  if code.size = k.size then liftM (k.readGuarded code) else throw (.size k.size code.size)

theorem run_decodeGuarded (code : Code) :
    (k.decodeGuarded code).run = .ok (k.decode code) := by
  unfold decodeGuarded decode
  split
  . exact Guarded.run_lift (k.readGuarded_eq code)
  . rfl

/--
Whether the differences that codecs form are those of a smaller from a larger number, and there are
as many encodings in the table as values.
-/
structure HasRoom : Prop where
  padding : 2 * k.padding < k.size
  gap : ∀ gap, 1 ≤ gap → gap ≤ k.halfwidth → gap + 2 < k.size
  run : ∀ run : Run, k.width < run.length →
    1 < run.start + run.length ∧ k.halfwidth < run.start + run.length - 1
  table : k.bucketCodes.length = k.bucketValues.length

theorem hasRoom : k.HasRoom where
  padding := k.two_mul_padding_lt
  gap := by
    intro gap hpos hle
    have := k.width_eq
    have := k.width_lt_size
    omega
  run := by
    intro run hlong
    have := k.width_eq
    omega
  table := List.length_map _

variable [Numeral α]

def lookUp (i : Nat) : Except (Error α) (Bucket α) :=
  match k.bucketValues[i]?, k.bucketCodes[i]? with
  | some value, some code => .ok ⟨value, code⟩
  | _, _ => .error (.bucket k.displayName (some i) k.bucketValues.length)

theorem lookUp_eq (i : Nat) : k.lookUp i = k.bucketAt i := by
  have hlength : k.bucketValues.length = k.bucketCount := by simp [bucketValues]
  unfold lookUp bucketAt
  rw [bucketCodes_eq]
  rw [hlength]
  unfold bucketValues
  rw [List.getElem?_map]
  rw [List.getElem?_map]
  dsimp only
  by_cases h : i < k.bucketCount
  . rw [if_pos h]
    rw [List.getElem?_range h]
    rfl
  . rw [if_neg h]
    rw [List.getElem?_eq_none (by simpa using h)]
    rfl

def reconstructGuarded (code : Code) : Guarded (Error α) (Bucket α) :=
  if code.size = k.size then do
    let best ← k.bestGuarded code
    ExceptT.mk (.ok (k.lookUp best))
  else
    throw (.size k.size code.size)

theorem run_reconstructGuarded (code : Code) :
    (k.reconstructGuarded code).run = .ok (k.reconstruct code) := by
  unfold reconstructGuarded reconstruct
  split
  . next h =>
    rw [Guarded.run_bind_of_ok (Guarded.run_lift (k.bestGuarded_eq h))]
    rw [lookUp_eq]
    rfl
  . rfl

end ScalarCodec

end CalendarCode
