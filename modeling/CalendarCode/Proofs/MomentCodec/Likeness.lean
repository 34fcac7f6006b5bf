import CalendarCode.Proofs.Binary64.Rounds
import CalendarCode.Proofs.Code.Likeness
import CalendarCode.Proofs.MomentCodec.Overlap
import CalendarCode.Proofs.MomentCodec.Rounded

/-!
This module contains how alike the codes of moments are. All moments have equally many active
positions, because no field loses a part of its run, and so it does not matter by which measure
moments are ranked.
-/

namespace CalendarCode

theorem Code.activeCount_concat {β : Type} {f : β → Code} {xs : List β} :
    (concat (xs.map f)).activeCount = (xs.map fun x => (f x).activeCount).sum := by
  induction xs with
  | nil => rfl
  | cons x xs ih =>
    simp only [List.map_cons, concat_cons, List.sum_cons]
    rw [← ih]
    unfold activeCount
    rw [bytes_append]
    rw [List.countP_append]

namespace ScalarCodec

variable {α : Type} [Arith α] {k : ScalarCodec α}

theorem WritesRun.activeCount_encode {v : α} (hv : k.WritesRun v) :
    (k.encode v).activeCount = k.width := by
  obtain ⟨b, -, hbucket, hcode⟩ := hv
  rw [hcode]
  exact k.activeCount_runCode hbucket

end ScalarCodec

namespace MomentCodec

section

variable {α : Type} [Arith α] (k : MomentCodec α)

def KeepsRuns : Prop :=
  ∀ f ∈ k.fields, ∀ m : Moment, f.codec.WritesRun (k.scalar m f)

/-- Whether no field has more than `2 ^ 49` positions; a longer code fits into no memory. -/
def HasSmallFields : Prop :=
  ∀ f ∈ k.fields, f.codec.size ≤ 2 ^ 49

def activeCount : Nat :=
  (k.fields.map fun f => f.codec.width).sum

theorem keepsRuns_exact (k : MomentCodec Rat) : k.KeepsRuns :=
  fun f _ m => f.codec.writesRun_exact (k.scalar m f)

variable {k}

theorem IsBuilt.keepsRuns {value : α → Rat} (hα : Arith.Rounds value) (hk : k.IsBuilt)
    (hsmall : k.HasSmallFields) : k.KeepsRuns :=
  fun f hf m => (hk.hasDomain f hf).writesRun hα (hsmall f hf) _ m

theorem KeepsRuns.activeCount_encode (hk : k.KeepsRuns) (m : Moment) :
    (k.encode (some m)).activeCount = k.activeCount := by
  have hconcat : k.encode (some m)
      = .concat (k.fields.map fun f => f.codec.encode (k.scalar m f)) := rfl
  rw [hconcat]
  rw [Code.activeCount_concat]
  unfold activeCount
  congr 1
  apply List.map_congr_left
  intro f hf
  exact (hk f hf m).activeCount_encode

structure RanksAlike (k : MomentCodec α) : Prop where
  activeCount : ∀ m : Moment, (k.encode (some m)).activeCount = k.activeCount
  rankedAlike : ∀ l m n : Moment,
    (k.encode (some l)).RankedAlike (k.encode (some m)) (k.encode (some n))

theorem IsBuilt.ranksAlike (hk : k.IsBuilt) (hruns : k.KeepsRuns) : k.RanksAlike where
  activeCount := hruns.activeCount_encode
  rankedAlike := by
    intro l m n
    apply Code.rankedAlike
    . rw [size_encode hk]
      rw [size_encode hk]
    . rw [size_encode hk]
      rw [size_encode hk]
    . rw [hruns.activeCount_encode m]
      rw [hruns.activeCount_encode n]

end

/--
All measures of two codes follow from the numbers of their active positions, and they rank the codes
of moments alike. An exact arithmetic takes no position from any field, and one that rounds takes
none from a field of up to `2 ^ 49` positions.
-/
theorem isMeasured_and_ranksAlike :
    (∀ a b : Code, a.size = b.size → a.IsMeasured b) ∧
    (∀ {c : Config Rat} {k : MomentCodec Rat}, build c = .ok k → k.RanksAlike) ∧
    (∀ {c : Config Float} {k : MomentCodec Float}, build c = .ok k → k.HasSmallFields →
      k.RanksAlike) := by
  refine ⟨?_, ?_, ?_⟩
  . intro a b h
    exact Code.isMeasured h
  . intro c k h
    exact (isBuilt_of_build h).ranksAlike k.keepsRuns_exact
  . intro c k h hsmall
    have hk := isBuilt_of_build h
    exact hk.ranksAlike (hk.keepsRuns Binary64.rounds_value hsmall)

/-- Radii that have no finite number of binary digits. -/
def rounded : Config Float where
  season := .withRadius 5 104.7
  weekend := .width 3
  timeOfDay := .withRadius 7 3.4

theorem isMeasured_and_ranksAlike_uneven_rounded :
    (∃ k, build uneven = .ok k ∧ k.RanksAlike ∧
      Code.measure? .overlap (k.encode (some leapSecond)) (k.encode (some newYear))
        = some (7 : Rat) ∧
      Code.measure? .hamming (k.encode (some leapSecond)) (k.encode (some newYear))
        = some (29 / 40 : Rat) ∧
      Code.measure? .jaccard (k.encode (some leapSecond)) (k.encode (some newYear))
        = some (7 / 29 : Rat)) ∧
    ∃ k, build rounded = .ok k ∧ k.HasSmallFields ∧ k.RanksAlike ∧ k.activeCount = 15 := by
  constructor
  . obtain ⟨k, hk, hnumbers⟩ := exists_eq_ok_of_toOption (x := build uneven)
      (f := fun k => (k.size, k.activeCount,
        (k.encode (some leapSecond)).overlap (k.encode (some newYear)))) (b := (80, 18, 7))
      (by decide +kernel)
    obtain ⟨hsize, hcount, hseven⟩ := by simpa only [Prod.mk.injEq] using hnumbers
    have hcodes := size_encode (isBuilt_of_build hk)
    have hranks := isMeasured_and_ranksAlike.2.1 hk
    have hmeasured := isMeasured_and_ranksAlike.1 (k.encode (some leapSecond))
      (k.encode (some newYear)) (by rw [hcodes, hcodes])
    have hoverlap := hmeasured.overlap
    have hhamming := hmeasured.hamming
    have hjaccard := hmeasured.jaccard
    rw [hcodes, hranks.activeCount, hranks.activeCount, hseven, hcount, hsize] at hhamming
    rw [hranks.activeCount, hranks.activeCount, hseven, hcount] at hjaccard
    rw [hseven] at hoverlap
    refine ⟨k, hk, hranks, hoverlap, ?_, ?_⟩
    . rw [hhamming]
      norm_num
    . rw [hjaccard]
      norm_num
  . obtain ⟨k, hk, hnumbers⟩ := exists_eq_ok_of_toOption (x := build rounded)
      (f := fun k => (k.fields.all fun f => decide (f.codec.size ≤ 2 ^ 49), k.activeCount))
      (b := (true, 15)) (by decide +kernel)
    obtain ⟨hfields, hcount⟩ := by simpa only [Prod.mk.injEq] using hnumbers
    have hsmall : k.HasSmallFields := by simpa [HasSmallFields] using hfields
    exact ⟨k, hk, hsmall, isMeasured_and_ranksAlike.2.2 hk hsmall, hcount⟩

end MomentCodec

end CalendarCode
