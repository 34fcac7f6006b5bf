import CalendarCode.Proofs.Code.InPlace
import CalendarCode.Proofs.Scalar.Encode

/-!
This module contains the writing of encodings over codes that already exist. Clearing the code and
then making one position after the other active leaves the same code as building it from nothing,
whatever the code was before.
-/

namespace CalendarCode

namespace Code

def activate (c : Code) (p : Int) : Code :=
  if 0 ≤ p then ⟨c.bytes.set p.toNat 1⟩ else c

theorem fill_zero (c : Code) : c.fill 0 = ofFn c.size fun _ => false := by
  ext1
  unfold fill ofFn bit
  simp only [Bool.false_eq_true, ↓reduceIte]
  rw [List.map_const']
  rw [List.length_range]

theorem activate_ofFn (n : Nat) (f : Nat → Bool) (p : Int) :
    (ofFn n f).activate p = ofFn n fun q => f q || decide ((q : Int) = p) := by
  ext1
  apply List.ext_getElem
  . unfold activate
    split <;> simp [ofFn]
  . intro q hq hq'
    unfold activate
    split
    . simp only [ofFn, List.getElem_set, List.getElem_map, List.getElem_range]
      by_cases hp : p.toNat = q
      . have hq : (q : Int) = p := by omega
        simp [hp, hq, bit]
      . have hq : (q : Int) ≠ p := by omega
        simp [hp, hq]
    . have hq : (q : Int) ≠ p := by omega
      simp [ofFn, hq]

theorem foldl_activate (n : Nat) (f : Nat → Bool) (ps : List Int) :
    ps.foldl activate (ofFn n f) = ofFn n fun q => f q || decide ((q : Int) ∈ ps) := by
  induction ps generalizing f with
  | nil => simp
  | cons p ps ih =>
    rw [List.foldl_cons]
    rw [activate_ofFn]
    rw [ih]
    congr 1
    funext q
    simp [Bool.or_assoc]

end Code

/--
Whether encoding an input over a code of some size leaves the encoding of the input, and a code of
any other size stays as it is.
-/
structure Overwrites {α ι : Type} (size : Nat) (encode : ι → Code)
    (encodeInto : ι → Code → Except (Error α) Code) (write : ι → InPlace α Unit) : Prop where
  fits : ∀ (input : ι) (code : Code), code.size = size →
    encodeInto input code = .ok (encode input) ∧ (write input).exec code = (.ok (), encode input)
  refuses : ∀ (input : ι) (code : Code), code.size ≠ size →
    encodeInto input code = .error (.size size code.size) ∧
    (write input).exec code = (.error (.error (.size size code.size)), code)

namespace ScalarCodec

open InPlace

variable {α : Type} [Arith α] (k : ScalarCodec α)

/-- Where the position with an index lies. On a line this may be beyond the ends. -/
def spot (i : Int) : Int :=
  if k.periodic then i % (k.size : Int) else i

def spots (s : Int) : List Int :=
  (List.range (k.runLength s)).map fun (i : Nat) => k.spot (s + i)

def write (v : α) : InPlace α Unit := do
  modify (·.fill 0)
  match k.start? v with
  | some s => (k.spots s).forM fun p => modify (·.activate p)
  | none => return ()

def writeChecked (v : α) : InPlace α Unit := do
  checkSize k.size
  k.write v

theorem mem_spots_iff {v : α} {s : Int} (hs : k.start? v = some s) {p : Nat} (hp : p < k.size) :
    (p : Int) ∈ k.spots s ↔ inRun k.periodic k.size s (k.runLength s) p = true := by
  have hsize : (k.size : Int) ≠ 0 := by omega
  have hwidth := k.width_lt_size
  have hlength := k.runLength_le hs
  unfold spots spot
  simp only [List.mem_map, List.mem_range]
  cases h : k.periodic with
  | false =>
    rw [inRun_line]
    simp only [Bool.false_eq_true, ↓reduceIte]
    constructor
    . rintro ⟨i, hi, heq⟩
      omega
    . intro hrun
      exact ⟨(p - s).toNat, by omega, by omega⟩
  | true =>
    rw [inRun_circle (by omega)]
    simp only [↓reduceIte]
    constructor
    . rintro ⟨i, hi, heq⟩
      have hdiff : ((p : Int) - s) % k.size = i % k.size := by
        rw [← heq]
        rw [Int.emod_sub_emod]
        rw [add_sub_cancel_left]
      rw [hdiff]
      rw [Int.emod_eq_of_lt (by omega) (by omega)]
      omega
    . intro hrun
      have hnonneg := Int.emod_nonneg ((p : Int) - s) hsize
      refine ⟨(((p : Int) - s) % k.size).toNat, by omega, ?_⟩
      rw [Int.toNat_of_nonneg hnonneg]
      rw [Int.add_emod_emod]
      rw [add_sub_cancel]
      exact Int.emod_eq_of_lt (by omega) (by omega)

theorem foldl_spots {v : α} {s : Int} (hs : k.start? v = some s) {code : Code}
    (h : code.size = k.size) :
    (k.spots s).foldl Code.activate (code.fill 0)
      = .ofFn k.size (inRun k.periodic k.size s (k.runLength s)) := by
  rw [Code.fill_zero]
  rw [Code.foldl_activate]
  rw [h]
  unfold Code.ofFn
  congr 1
  apply List.map_congr_left
  intro p hp
  congr 1
  simp only [Bool.false_or]
  rw [Bool.eq_iff_iff]
  rw [decide_eq_true_eq]
  exact k.mem_spots_iff hs (List.mem_range.mp hp)

theorem exec_write (v : α) {code : Code} (h : code.size = k.size) :
    (k.write v).exec code = (.ok (), k.encode v) := by
  unfold write
  rw [exec_bind_of_ok (exec_modify _ code)]
  unfold encode
  cases hs : k.start? v with
  | none =>
    simp only [exec_pure, Code.fill, h]
    rfl
  | some s =>
    simp only
    rw [← k.foldl_spots hs h]
    apply exec_forM (P := fun _ => True)
    . intro p _ c _
      exact ⟨rfl, trivial⟩
    . trivial

theorem encodeInto_eq (v : α) {code : Code} (h : code.size = k.size) :
    k.encodeInto v code = .ok (k.encode v) := by
  unfold encodeInto encode
  rw [if_pos h]
  cases k.start? v with
  | none =>
    simp only [Code.fill, h]
    rfl
  | some s =>
    simp only [Code.overwrite, Code.ofFn, h]
    congr 2
    rw [← h]
    apply List.ext_getElem
    . simp [Code.size]
    . intro p _ _
      simp

theorem overwrites : Overwrites k.size k.encode k.encodeInto k.writeChecked where
  fits := by
    intro v code h
    refine ⟨k.encodeInto_eq v h, ?_⟩
    unfold writeChecked
    rw [exec_bind_of_ok (exec_checkSize h)]
    exact k.exec_write v h
  refuses := by
    intro v code h
    constructor
    . unfold encodeInto
      rw [if_neg h]
    . unfold writeChecked
      rw [exec_bind_of_error (exec_checkSize_of_ne h)]

end ScalarCodec

end CalendarCode
