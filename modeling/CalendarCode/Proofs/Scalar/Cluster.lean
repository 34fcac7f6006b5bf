import CalendarCode.Proofs.Scalar.Starts
import Mathlib.Logic.Relation

/-!
This module contains clusters of buckets: the buckets that follow each other closely enough for the
gaps between their runs to be filled. The clusters of a set of buckets are the clusters of the
integers at which their runs start.
-/

namespace CalendarCode.ScalarCodec

variable {α : Type} [Arith α] (k : ScalarCodec α)

/-- Whether the first bucket of a set behind one of its members comes after a number of steps. -/
structure IsNext (B : Nat → Prop) (a d : Nat) : Prop where
  mem : B a
  pos : 0 < d
  next_mem : B (k.place (a + d))
  between : ∀ e, 0 < e → e < d → ¬B (k.place (a + e))

def reach : Nat :=
  k.width + k.halfwidth

def Joined (B : Nat → Prop) (a b : Nat) : Prop :=
  ∃ d ≤ k.reach, k.IsNext B a d ∧ b = k.place (a + d)

/-- Whether a cluster of a set of buckets goes from one bucket to another. -/
structure IsBucketCluster (B : Nat → Prop) (lo hi : Nat) : Prop where
  first_mem : B lo
  last_mem : B hi
  reachable : Relation.ReflTransGen (k.Joined B) lo hi
  before : ∀ a, ¬k.Joined B a lo
  behind : ∀ b, ¬k.Joined B hi b

def bucketFrom (s : Int) : Nat :=
  if k.periodic then k.place (s + k.halfwidth) else s.toNat

theorem bucketFrom_of_circle (h : k.periodic = true) (s : Int) :
    k.bucketFrom s = k.place (s + k.halfwidth) := by
  simp [bucketFrom, h]

theorem bucketFrom_of_line (h : k.periodic = false) (s : Int) : k.bucketFrom s = s.toNat := by
  simp [bucketFrom, h]

theorem bucketFrom_startOf {b : Nat} (hb : k.HasBucket b) : k.bucketFrom (k.startOf b) = b := by
  cases h : k.periodic with
  | false =>
    rw [k.bucketFrom_of_line h]
    rw [k.startOf_of_line h]
    rw [Int.toNat_natCast]
  | true =>
    rw [k.hasBucket_of_circle h] at hb
    rw [k.bucketFrom_of_circle h]
    rw [k.startOf_of_circle h]
    rw [sub_add_cancel]
    exact k.place_of_lt h hb

section

variable {B : Nat → Prop} {s t : Int}

theorem mem_bucketFrom (hs : k.Starts B s) : B (k.bucketFrom s) := by
  cases h : k.periodic with
  | false =>
    rw [k.bucketFrom_of_line h]
    exact ((k.starts_of_line h).mp hs).2
  | true =>
    rw [k.bucketFrom_of_circle h]
    exact (k.starts_of_circle h).mp hs

theorem bucketFrom_add (hs : k.Starts B s) (e : Nat) :
    k.bucketFrom (s + e) = k.place (k.bucketFrom s + e) := by
  cases h : k.periodic with
  | false =>
    have := ((k.starts_of_line h).mp hs).1
    rw [k.bucketFrom_of_line h]
    rw [k.bucketFrom_of_line h]
    rw [k.place_of_line h]
    omega
  | true =>
    rw [k.bucketFrom_of_circle h]
    rw [k.bucketFrom_of_circle h]
    rw [k.place_congr h]
    rw [k.place_of_circle h]
    rw [Int.emod_add_emod]
    rw [add_right_comm]

theorem starts_add (hs : k.Starts B s) (e : Nat) :
    k.Starts B (s + e) ↔ B (k.place (k.bucketFrom s + e)) := by
  rw [← k.bucketFrom_add hs]
  constructor
  . exact k.mem_bucketFrom
  . intro hB
    cases h : k.periodic with
    | false =>
      have := ((k.starts_of_line h).mp hs).1
      rw [k.bucketFrom_of_line h] at hB
      exact (k.starts_of_line h).mpr ⟨by omega, hB⟩
    | true =>
      rw [k.bucketFrom_of_circle h] at hB
      exact (k.starts_of_circle h).mpr hB

theorem exists_start_of_mem {b : Nat} (hb : k.HasBucket b) (hB : B b) :
    ∃ s : Nat, s < k.size ∧ k.Starts B s ∧ k.bucketFrom s = b := by
  cases h : k.periodic with
  | false =>
    have := k.width_pos
    have hstart := k.starts_startOf hb hB
    have hfrom := k.bucketFrom_startOf hb
    rw [k.startOf_of_line h] at hstart hfrom
    rw [k.hasBucket_of_line h] at hb
    exact ⟨b, by omega, hstart, hfrom⟩
  | true =>
    have hfrom : k.place (k.place (k.startOf b) + k.halfwidth) = b := by
      rw [k.hasBucket_of_circle h] at hb
      rw [← k.place_of_lt h hb]
      rw [k.place_congr h]
      rw [k.place_of_circle h]
      rw [Int.emod_add_emod]
      rw [k.startOf_of_circle h]
      rw [sub_add_cancel]
      rw [k.place_of_lt h hb]
    refine ⟨k.place (k.startOf b), k.place_lt_size h _, ?_, ?_⟩
    . rw [k.starts_of_circle h]
      rw [hfrom]
      exact hB
    . rw [k.bucketFrom_of_circle h]
      exact hfrom

theorem place_startOf_bucketFrom {s : Nat} (hs : s < k.size) :
    k.place (k.startOf (k.bucketFrom s)) = s := by
  cases h : k.periodic with
  | false =>
    rw [k.place_of_line h]
    rw [k.startOf_of_line h]
    rw [k.bucketFrom_of_line h]
    rfl
  | true =>
    have hturn : k.place (k.startOf (k.bucketFrom s)) = k.place s := by
      rw [k.place_congr h]
      rw [k.startOf_of_circle h]
      rw [k.bucketFrom_of_circle h]
      rw [k.place_of_circle h]
      rw [Int.emod_sub_emod]
      rw [add_sub_cancel_right]
    rw [hturn]
    exact k.place_of_lt h hs

theorem joined_of_next (hs : k.Starts B s) (ht : k.Starts B t) (hst : s < t)
    (hclose : t ≤ s + k.reach) (hbetween : ∀ u, s < u → u < t → ¬k.Starts B u) :
    k.Joined B (k.bucketFrom s) (k.bucketFrom t) := by
  obtain ⟨d, rfl⟩ : ∃ d : Nat, t = s + d := ⟨(t - s).toNat, by omega⟩
  refine ⟨d, by omega, ⟨k.mem_bucketFrom hs, by omega, ?_, ?_⟩, k.bucketFrom_add hs d⟩
  . exact (k.starts_add hs d).mp ht
  . intro e hpos hlt hB
    exact hbetween (s + e) (by omega) (by omega) ((k.starts_add hs e).mpr hB)

theorem next_of_joined {b : Nat} (hs : k.Starts B s) (h : k.Joined B (k.bucketFrom s) b) :
    ∃ t, k.Starts B t ∧ s < t ∧ t ≤ s + k.reach ∧ b = k.bucketFrom t ∧
      ∀ u, s < u → u < t → ¬k.Starts B u := by
  obtain ⟨d, hclose, hnext, rfl⟩ := h
  have := hnext.pos
  refine ⟨s + d, ?_, by omega, by omega, (k.bucketFrom_add hs d).symm, ?_⟩
  . exact (k.starts_add hs d).mpr hnext.next_mem
  . intro u hsu hut hu
    obtain ⟨e, rfl⟩ : ∃ e : Nat, u = s + e := ⟨(u - s).toNat, by omega⟩
    exact hnext.between e (by omega) (by omega) ((k.starts_add hs e).mp hu)

theorem previous_of_joined (hB : ∀ b, B b → k.HasBucket b) {a : Nat} (ht : k.Starts B t)
    (h : k.Joined B a (k.bucketFrom t)) : ∃ s, k.Starts B s ∧ s < t ∧ t ≤ s + k.reach := by
  obtain ⟨d, hclose, hnext, hplace⟩ := h
  have := hnext.pos
  refine ⟨t - d, ?_, by omega, by omega⟩
  have hbucket := hB a hnext.mem
  cases hc : k.periodic with
  | false =>
    have := ((k.starts_of_line hc).mp ht).1
    rw [k.bucketFrom_of_line hc] at hplace
    rw [k.place_of_line hc] at hplace
    rw [k.starts_of_line hc]
    rw [show t - d = a by omega]
    exact ⟨by omega, hnext.mem⟩
  | true =>
    rw [k.hasBucket_of_circle hc] at hbucket
    rw [k.bucketFrom_of_circle hc] at hplace
    rw [k.place_congr hc] at hplace
    rw [← Int.emod_sub_cancel_right (d : Int)] at hplace
    rw [add_sub_cancel_right] at hplace
    rw [add_sub_right_comm] at hplace
    rw [← k.place_congr hc] at hplace
    rw [k.place_of_lt hc hbucket] at hplace
    rw [k.starts_of_circle hc]
    rw [hplace]
    exact hnext.mem

theorem reachable_of_chain (hs : k.Starts B s)
    (hnext : ∀ u, k.Starts B u → s ≤ u → u < t → ∃ v, k.Starts B v ∧ u < v ∧ v ≤ u + k.reach)
    {u : Int} (hu : k.Starts B u) (hsu : s ≤ u) (hut : u ≤ t) :
    Relation.ReflTransGen (k.Joined B) (k.bucketFrom s) (k.bucketFrom u) := by
  -- by induction on the distance, and over the start in front of `u`
  induction hd : (u - s).toNat using Nat.strong_induction_on generalizing u with
  | h d ih =>
    by_cases heq : s = u
    . rw [heq]
    . obtain ⟨p, hp, hsp, hpu, hbetween⟩ := exists_previous hs (show s ≤ u - 1 by omega)
      obtain ⟨v, hv, hpv, hclose⟩ := hnext p hp hsp (by omega)
      have huv : u ≤ v := by
        by_contra hvu
        exact hbetween v hpv (by omega) hv
      apply Relation.ReflTransGen.tail
      . exact ih (p - s).toNat (by omega) hp hsp (by omega) rfl
      . apply k.joined_of_next hp hu (by omega) (by omega)
        intro w hpw hwu
        exact hbetween w hpw (by omega)

theorem isBucketCluster_of_isCluster (hB : ∀ b, B b → k.HasBucket b)
    (h : IsCluster (k.Starts B) k.reach s t) :
    k.IsBucketCluster B (k.bucketFrom s) (k.bucketFrom t) := by
  constructor
  . exact k.mem_bucketFrom h.first_mem
  . exact k.mem_bucketFrom h.last_mem
  . apply k.reachable_of_chain h.first_mem h.next h.last_mem h.le (le_refl t)
  . intro a hjoined
    obtain ⟨u, hu, hus, hclose⟩ := k.previous_of_joined hB h.first_mem hjoined
    have := h.before u hu hus
    omega
  . intro b hjoined
    obtain ⟨u, hu, htu, hclose, -, -⟩ := k.next_of_joined h.last_mem hjoined
    have := h.behind u hu htu
    omega

theorem chain_of_reachable (hs : k.Starts B s) {b : Nat}
    (h : Relation.ReflTransGen (k.Joined B) (k.bucketFrom s) b) :
    ∃ t, k.Starts B t ∧ s ≤ t ∧ b = k.bucketFrom t ∧
      ∀ u, k.Starts B u → s ≤ u → u < t → ∃ v, k.Starts B v ∧ u < v ∧ v ≤ u + k.reach := by
  induction h with
  | refl =>
    refine ⟨s, hs, le_refl s, rfl, ?_⟩
    intro u _ hsu hus
    omega
  | tail _ hjoined ih =>
    obtain ⟨t, ht, hst, rfl, hchain⟩ := ih
    obtain ⟨v, hv, htv, hclose, rfl, hbetween⟩ := k.next_of_joined ht hjoined
    refine ⟨v, hv, by omega, rfl, ?_⟩
    intro u hu hsu huv
    rcases lt_trichotomy u t with hlt | heq | hgt
    . exact hchain u hu hsu hlt
    . rw [heq]
      exact ⟨v, hv, htv, hclose⟩
    . exact absurd hu (hbetween u hgt huv)

theorem isCluster_of_isBucketCluster (hs : k.Starts B s) {b : Nat}
    (h : k.IsBucketCluster B (k.bucketFrom s) b) :
    ∃ t, IsCluster (k.Starts B) k.reach s t ∧ b = k.bucketFrom t := by
  obtain ⟨t, ht, hst, rfl, hchain⟩ := k.chain_of_reachable hs h.reachable
  refine ⟨t, ⟨hst, hs, ht, hchain, ?_, ?_⟩, rfl⟩
  . intro u hu hus
    by_contra hclose
    obtain ⟨v, hv, huv, hvs, hbetween⟩ := exists_previous hu (show u ≤ s - 1 by omega)
    apply h.before
    apply k.joined_of_next hv hs (by omega) (by omega)
    intro w hvw hws
    exact hbetween w hvw (by omega)
  . intro u hu htu
    by_contra hclose
    obtain ⟨v, hv, htv, hvu, hbetween⟩ := exists_next hu (show t + 1 ≤ u by omega)
    apply h.behind
    apply k.joined_of_next ht hv (by omega) (by omega)
    intro w htw hwv
    exact hbetween w (by omega) hwv

end

end CalendarCode.ScalarCodec
