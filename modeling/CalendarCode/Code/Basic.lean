/-!
This module contains codes: rows of bytes in which every byte that is not zero is an active
position. Codecs only write zeros and ones, but a code from elsewhere may hold any byte.
-/

namespace CalendarCode

structure Code where
  bytes : List UInt8
  deriving DecidableEq

namespace Code

def bit (active : Bool) : UInt8 :=
  if active then 1 else 0

def size (c : Code) : Nat :=
  c.bytes.length

def empty : Code :=
  ⟨[]⟩

def zeros (n : Nat) : Code :=
  ⟨List.replicate n 0⟩

def ofFn (n : Nat) (f : Nat → Bool) : Code :=
  ⟨(List.range n).map fun p => bit (f p)⟩

def ofBytes (bytes : List UInt8) : Code :=
  ⟨bytes.map fun b => bit (b != 0)⟩

def set? (c : Code) (p : Nat) (b : UInt8) : Option Code :=
  if p < c.size then some ⟨c.bytes.set p b⟩ else none

def get? (c : Code) (p : Nat) : Option UInt8 :=
  c.bytes[p]?

def ofActive? (n : Nat) (positions : List Nat) : Option Code :=
  positions.foldlM (fun c p => c.set? p 1) (zeros n)

def overwrite (c : Code) (f : Nat → Bool) : Code :=
  ⟨c.bytes.mapIdx fun p _ => bit (f p)⟩

def fill (c : Code) (b : UInt8) : Code :=
  ⟨List.replicate c.size b⟩

instance : Append Code where
  append a b := ⟨a.bytes ++ b.bytes⟩

def concat (codes : List Code) : Code :=
  ⟨codes.flatMap bytes⟩

/-- The `n` positions from `start` on, as far as they exist. -/
def slice (c : Code) (start n : Nat) : Code :=
  ⟨(c.bytes.drop start).take n⟩

def splice (c : Code) (start : Nat) (part : Code) : Code :=
  ⟨c.bytes.take start ++ part.bytes ++ c.bytes.drop (start + part.size)⟩

def activity (c : Code) : List Bool :=
  c.bytes.map (· != 0)

def activeCount (c : Code) : Nat :=
  c.bytes.countP (· != 0)

def activePositions (c : Code) : List Nat :=
  c.bytes.zipIdx.filterMap fun (b, p) => if b != 0 then some p else none

def text (c : Code) : String :=
  String.join (c.bytes.map fun b => toString b.toNat)

def picture (c : Code) : List Char :=
  c.activity.map fun active => if active then '1' else '0'

@[ext]
theorem ext {a b : Code} (h : a.bytes = b.bytes) : a = b := by
  cases a; cases b; simp_all

@[simp]
theorem bit_ne_zero (active : Bool) : (bit active != 0) = active := by
  cases active <;> rfl

@[simp]
theorem size_zeros (n : Nat) : (zeros n).size = n := by
  simp [size, zeros]

@[simp]
theorem size_ofFn (n : Nat) (f : Nat → Bool) : (ofFn n f).size = n := by
  simp [size, ofFn]

@[simp]
theorem size_overwrite (c : Code) (f : Nat → Bool) : (c.overwrite f).size = c.size := by
  simp [size, overwrite]

@[simp]
theorem size_fill (c : Code) (b : UInt8) : (c.fill b).size = c.size := by
  simp [size, fill]

@[simp]
theorem size_ofBytes (bytes : List UInt8) : (ofBytes bytes).size = bytes.length := by
  simp [size, ofBytes]

@[simp]
theorem bytes_append (a b : Code) : (a ++ b).bytes = a.bytes ++ b.bytes := rfl

@[simp]
theorem size_append (a b : Code) : (a ++ b).size = a.size + b.size :=
  List.length_append

@[simp]
theorem concat_nil : concat [] = empty := rfl

@[simp]
theorem concat_cons (c : Code) (codes : List Code) : concat (c :: codes) = c ++ concat codes := by
  ext1
  simp [concat]

theorem size_slice (c : Code) {start n : Nat} (h : start + n ≤ c.size) :
    (c.slice start n).size = n := by
  simp only [size, slice, List.length_take, List.length_drop] at h ⊢
  omega

theorem slice_all {c : Code} {n : Nat} (h : c.size = n) : c.slice 0 n = c := by
  ext1
  simp [slice, ← h, size]

theorem slice_append_slice (c : Code) (start n m : Nat) :
    c.slice start n ++ c.slice (start + n) m = c.slice start (n + m) := by
  ext1
  simp only [bytes_append, slice]
  rw [List.take_add]
  rw [List.drop_drop]

theorem size_splice (c part : Code) {start : Nat} (h : start + part.size ≤ c.size) :
    (c.splice start part).size = c.size := by
  simp only [size, splice, List.length_append, List.length_take, List.length_drop] at h ⊢
  omega

theorem splice_slice (c : Code) {start n : Nat} (h : start + n ≤ c.size) :
    c.splice start (c.slice start n) = c := by
  ext1
  unfold splice
  rw [c.size_slice h]
  simp only [slice]
  rw [← List.drop_drop]
  rw [List.append_assoc]
  rw [List.take_append_drop]
  rw [List.take_append_drop]

theorem splice_empty (c : Code) (start : Nat) : c.splice start empty = c := by
  ext1
  simp [splice, empty, size]

theorem splice_splice (a b : Code) {c : Code} {start : Nat} (h : start + a.size ≤ c.size) :
    (c.splice start a).splice (start + a.size) b = c.splice start (a ++ b) := by
  ext1
  simp only [size] at h
  have hstart : (c.bytes.take start).length = start := by
    rw [List.length_take]
    omega
  simp only [splice, size, bytes_append, List.length_append]
  rw [List.take_append_of_le_length (by simp [hstart])]
  rw [List.take_of_length_le (by simp [hstart])]
  rw [List.drop_append]
  rw [List.drop_of_length_le (by simp [hstart])]
  simp only [List.length_append, List.nil_append, List.drop_drop, List.append_assoc, hstart]
  congr 4
  omega

theorem splice_all {c part : Code} (h : part.size = c.size) : c.splice 0 part = part := by
  ext1
  simp only [size] at h
  simp [splice, size, h]

@[simp]
theorem length_activity (c : Code) : c.activity.length = c.size := by
  simp [activity, size]

@[simp]
theorem activity_append (a b : Code) : (a ++ b).activity = a.activity ++ b.activity := by
  simp [activity]

theorem activity_slice (c : Code) (start n : Nat) :
    (c.slice start n).activity = (c.activity.drop start).take n := by
  simp only [activity, slice, List.map_take, List.map_drop]

@[simp]
theorem activity_zeros (n : Nat) : (zeros n).activity = List.replicate n false := by
  simp [activity, zeros]

@[simp]
theorem activity_ofFn (n : Nat) (f : Nat → Bool) : (ofFn n f).activity = (List.range n).map f := by
  simp [activity, ofFn, Function.comp_def]

@[simp]
theorem activity_ofBytes (bytes : List UInt8) :
    (ofBytes bytes).activity = bytes.map (· != 0) := by
  simp [activity, ofBytes, Function.comp_def]

theorem activeCount_eq (c : Code) : c.activeCount = c.activity.count true := by
  simp [activeCount, activity, List.count, List.countP_map, Function.comp_def]

end Code

end CalendarCode
