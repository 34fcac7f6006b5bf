import CalendarCode.Code.Similarity
import CalendarCode.Scalar.Encode

/-!
This module contains buckets: the sets of values that have the same encoding. Each bucket has one
value that stands for it, and a code is matched with the bucket whose encoding it overlaps most.
-/

namespace CalendarCode

structure Bucket (α : Type) where
  value : α
  code : Code

/-- The first index below `n` at which a score is largest. -/
def firstMaximum (score : Nat → Nat) (n : Nat) : Nat :=
  let better (best : Nat × Nat) (i : Nat) : Nat × Nat :=
    let s := score i
    if best.2 < s then (i, s) else best
  ((List.range n).foldl better (0, 0)).1

namespace ScalarCodec

variable {α : Type} [Arith α] (k : ScalarCodec α)

/-- On a circle the middle of the bucket, on a line the value whose position is exact. -/
def bucketValue (i : Nat) : α :=
  if k.periodic then
    k.low + (Arith.ofNat i + Arith.ratio 1 2) * (k.range / Arith.ofNat k.innerSize)
  else k.low + Arith.ofNat i * k.resolution

def bucketValues : List α :=
  (List.range k.bucketCount).map k.bucketValue

def bucketCode (i : Nat) : Code :=
  k.encode (Arith.clamp k.low k.high (k.bucketValue i))

def bucket (i : Nat) : Bucket α :=
  ⟨k.bucketValue i, k.bucketCode i⟩

/-- The bucket whose encoding overlaps a code most, and the first of those that do so alike. -/
def bestBucket (code : Code) : Nat :=
  firstMaximum (fun i => (k.bucketCode i).overlap code) k.bucketCount

variable [Numeral α]

def bucketAt (i : Nat) : Except (Error α) (Bucket α) :=
  let count := k.bucketCount
  if i < count then .ok (k.bucket i) else .error (.bucket k.displayName (some i) count)

def reconstruct (code : Code) : Except (Error α) (Bucket α) :=
  if code.size = k.size then k.bucketAt (k.bestBucket code) else .error (.size k.size code.size)

end ScalarCodec

end CalendarCode
