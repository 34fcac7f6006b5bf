import CalendarCode.Code.Basic
import CalendarCode.Layout
import Mathlib.Data.List.Induction

/-!
This module contains the invariant of layouts: the fields lie one behind the other without a gap,
and together they take all positions. The code of a field can be cut out of the code of all of them.
-/

namespace CalendarCode

variable {α : Type} [Arith α]

def Contiguous (start : Nat) : List (Field α) → Prop
  | [] => True
  | f :: fields => f.offset = start ∧ Contiguous f.stop fields

def sizes : List (Field α) → Nat
  | [] => 0
  | f :: fields => f.size + sizes fields

@[simp]
theorem sizes_nil : sizes ([] : List (Field α)) = 0 := rfl

@[simp]
theorem sizes_cons (f : Field α) (fields : List (Field α)) :
    sizes (f :: fields) = f.size + sizes fields := rfl

theorem sizes_append (fields rest : List (Field α)) :
    sizes (fields ++ rest) = sizes fields + sizes rest := by
  induction fields with
  | nil => simp
  | cons f fields ih =>
    rw [List.cons_append]
    rw [sizes_cons]
    rw [sizes_cons]
    rw [ih]
    rw [Nat.add_assoc]

theorem contiguous_append {start : Nat} {fields rest : List (Field α)} :
    Contiguous start (fields ++ rest)
      ↔ Contiguous start fields ∧ Contiguous (start + sizes fields) rest := by
  induction fields generalizing start with
  | nil => simp [Contiguous]
  | cons f fields ih =>
    simp only [List.cons_append, Contiguous, sizes_cons, ih, Field.stop]
    constructor
    . rintro ⟨rfl, hfields, hrest⟩
      exact ⟨⟨rfl, hfields⟩, by rwa [← Nat.add_assoc]⟩
    . rintro ⟨⟨rfl, hfields⟩, hrest⟩
      exact ⟨rfl, hfields, by rwa [Nat.add_assoc]⟩

theorem stop_le_of_contiguous {start : Nat} {fields : List (Field α)} (h : Contiguous start fields)
    {f : Field α} (hf : f ∈ fields) : f.stop ≤ start + sizes fields := by
  induction fields generalizing start with
  | nil => contradiction
  | cons g fields ih =>
    obtain ⟨hoffset, hrest⟩ := h
    rw [sizes_cons]
    rcases List.mem_cons.mp hf with rfl | hf
    . unfold Field.stop
      omega
    . have hstop := ih hrest hf
      unfold Field.stop at hstop ⊢
      omega

theorem find?_eq_some_of_unique {fields : List (Field α)} {accepts : Field α → Bool} {f : Field α}
    (hf : f ∈ fields) (haccepts : accepts f = true)
    (h : ∀ g ∈ fields, accepts g = true → g = f) : fields.find? accepts = some f := by
  have hsome : (fields.find? accepts).isSome = true := List.find?_isSome.mpr ⟨f, hf, haccepts⟩
  obtain ⟨g, hg⟩ := Option.isSome_iff_exists.mp hsome
  rw [hg]
  rw [h g (List.mem_of_find?_eq_some hg) (List.find?_some hg)]

namespace Layout

structure IsTight (l : Layout α) : Prop where
  contiguous : Contiguous 0 l.fields
  size_eq : l.size = sizes l.fields

theorem isTight_empty : (empty : Layout α).IsTight :=
  ⟨trivial, rfl⟩

theorem isTight_push {l : Layout α} (h : l.IsTight) (aspect : Aspect) (name : String)
    (codec : ScalarCodec α) : (l.push aspect name codec).IsTight := by
  constructor
  . rw [fields_push]
    rw [contiguous_append]
    rw [Nat.zero_add]
    rw [← h.size_eq]
    exact ⟨h.contiguous, rfl, trivial⟩
  . rw [fields_push]
    rw [size_push]
    rw [sizes_append]
    rw [h.size_eq]
    rfl

theorem stop_le_size {l : Layout α} (h : l.IsTight) {f : Field α} (hf : f ∈ l.fields) :
    f.stop ≤ l.size := by
  have hstop := stop_le_of_contiguous h.contiguous hf
  rw [← h.size_eq] at hstop
  rw [Nat.zero_add] at hstop
  exact hstop

def ofPushes (pushes : List (Aspect × String × ScalarCodec α)) : Layout α :=
  pushes.foldl (fun l (aspect, name, codec) => l.push aspect name codec) empty

theorem ofPushes_concat (pushes : List (Aspect × String × ScalarCodec α)) (aspect : Aspect)
    (name : String) (codec : ScalarCodec α) :
    ofPushes (pushes ++ [(aspect, name, codec)]) = (ofPushes pushes).push aspect name codec := by
  unfold ofPushes
  rw [List.foldl_append]
  rfl

theorem isTight_ofPushes (pushes : List (Aspect × String × ScalarCodec α)) :
    (ofPushes pushes).IsTight := by
  induction pushes using List.reverseRecOn with
  | nil => exact isTight_empty
  | append_singleton pushes push ih =>
    rw [ofPushes_concat]
    exact isTight_push ih push.1 push.2.1 push.2.2

theorem fields_ofPushes (pushes : List (Aspect × String × ScalarCodec α)) :
    (ofPushes pushes).fields.map (fun f => (f.aspect, f.name, f.codec)) = pushes := by
  induction pushes using List.reverseRecOn with
  | nil => rfl
  | append_singleton pushes push ih =>
    rw [ofPushes_concat]
    rw [fields_push]
    rw [List.map_append]
    rw [ih]
    rfl

end Layout

theorem slice_append_concat {code : Field α → Code} {fields : List (Field α)} (front : Code)
    (hfields : Contiguous front.size fields) (hsize : ∀ f ∈ fields, (code f).size = f.size)
    {f : Field α} (hf : f ∈ fields) :
    (front ++ Code.concat (fields.map code)).slice f.offset f.size = code f := by
  induction fields generalizing front with
  | nil => contradiction
  | cons g fields ih =>
    obtain ⟨hoffset, hrest⟩ := hfields
    have hg := hsize g List.mem_cons_self
    simp only [List.map_cons, Code.concat_cons]
    rcases List.mem_cons.mp hf with rfl | hf
    . ext1
      unfold Code.size at hg hoffset
      simp [Code.slice, hoffset, ← hg]
    . have hassoc : front ++ (code g ++ Code.concat (fields.map code))
          = (front ++ code g) ++ Code.concat (fields.map code) := by
        ext1
        simp
      rw [hassoc]
      apply ih
      . rw [Code.size_append]
        rw [hg]
        rw [← hoffset]
        exact hrest
      . intro h hh
        exact hsize h (List.mem_cons_of_mem g hh)
      . exact hf

theorem slice_concat {code : Field α → Code} {fields : List (Field α)}
    (hfields : Contiguous 0 fields) (hsize : ∀ f ∈ fields, (code f).size = f.size)
    {f : Field α} (hf : f ∈ fields) :
    (Code.concat (fields.map code)).slice f.offset f.size = code f := by
  have hfront := slice_append_concat .empty hfields hsize hf
  have hempty : Code.empty ++ Code.concat (fields.map code) = Code.concat (fields.map code) := by
    ext1
    simp [Code.empty]
  rwa [hempty] at hfront

/-- The parts of a code for fields, one after the other, are the positions that the fields take. -/
theorem concat_slices {start : Nat} {fields : List (Field α)} (hfields : Contiguous start fields)
    (code : Code) : Code.concat (fields.map fun f => code.slice f.offset f.size)
      = code.slice start (sizes fields) := by
  induction fields generalizing start with
  | nil => rfl
  | cons f fields ih =>
    obtain ⟨rfl, hrest⟩ := hfields
    rw [List.map_cons]
    rw [Code.concat_cons]
    rw [ih hrest]
    rw [sizes_cons]
    exact code.slice_append_slice f.offset f.size (sizes fields)

theorem foldl_splice {code : Field α → Code} {start : Nat} {fields : List (Field α)}
    (hfields : Contiguous start fields) (hsize : ∀ f ∈ fields, (code f).size = f.size)
    {whole : Code} (hwhole : start + sizes fields ≤ whole.size) :
    fields.foldl (fun c f => c.splice f.offset (code f)) whole
      = whole.splice start (.concat (fields.map code)) := by
  induction fields generalizing start whole with
  | nil =>
    simp only [List.foldl_nil, List.map_nil, Code.concat_nil]
    rw [Code.splice_empty]
  | cons f fields ih =>
    obtain ⟨hoffset, hrest⟩ := hfields
    have hf := hsize f List.mem_cons_self
    rw [sizes_cons] at hwhole
    have hroom : start + (code f).size ≤ whole.size := by omega
    rw [List.foldl_cons]
    rw [hoffset]
    rw [ih hrest fun g hg => hsize g (List.mem_cons_of_mem f hg)]
    . unfold Field.stop
      rw [hoffset]
      rw [← hf]
      rw [Code.splice_splice _ _ hroom]
      rw [List.map_cons]
      rw [Code.concat_cons]
    . rw [Code.size_splice _ _ hroom]
      unfold Field.stop
      omega

theorem size_concat {code : Field α → Code} {fields : List (Field α)}
    (hsize : ∀ f ∈ fields, (code f).size = f.size) :
    (Code.concat (fields.map code)).size = sizes fields := by
  induction fields with
  | nil => rfl
  | cons f fields ih =>
    simp only [List.map_cons, Code.concat_cons, Code.size_append, sizes_cons]
    rw [hsize f List.mem_cons_self]
    rw [ih fun g hg => hsize g (List.mem_cons_of_mem f hg)]

end CalendarCode
