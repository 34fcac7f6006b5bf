import CalendarCode.Proofs.Code.Active

/-!
This module contains pictures of codes. A picture shows which positions are active and nothing else.
Pictures that stand in a text with spaces between them can be told apart, and without the spaces
they are the picture of all codes one after the other.
-/

namespace CalendarCode.Code

variable {a b : Code}

theorem activity_eq_iff (hsize : a.size = b.size) :
    a.activity = b.activity ↔ ∀ p, a.isActive p = b.isActive p := by
  constructor
  . intro h p
    unfold isActive
    rw [h]
  . intro h
    apply activity_congr hsize
    intro p
    rw [h]

theorem picture_congr (h : a.activity = b.activity) : a.picture = b.picture := by
  unfold picture
  rw [h]

theorem blank_not_mem_picture (c : Code) : ' ' ∉ c.picture := by
  unfold picture
  rw [List.mem_map]
  rintro ⟨active, -, h⟩
  cases active <;> contradiction

@[simp]
theorem length_picture (c : Code) : c.picture.length = c.size := by
  simp [picture]

theorem picture_concat (codes : List Code) :
    (concat codes).picture = (codes.map picture).flatten := by
  induction codes with
  | nil => rfl
  | cons c codes ih =>
    rw [concat_cons]
    rw [List.map_cons]
    rw [List.flatten_cons]
    rw [← ih]
    simp [picture]

theorem toList_bit (active : Bool) :
    (toString (bit active).toNat).toList = [if active then '1' else '0'] := by
  cases active with
  | false => decide
  | true => decide

/-- A picture is how the bytes look in decimal digits once they are zeros and ones. -/
theorem ofList_picture (c : Code) : String.ofList c.picture = (ofBytes c.bytes).text := by
  apply String.toList_injective
  unfold text ofBytes picture activity
  rw [String.toList_ofList]
  rw [String.toList_join]
  rw [List.map_map]
  rw [List.map_map]
  rw [List.flatMap_map]
  rw [List.map_eq_flatMap]
  simp only [Function.comp_def, toList_bit]

theorem toList_intercalate_ofList (pictures : List (List Char)) :
    (" ".intercalate (pictures.map String.ofList)).toList = [' '].intercalate pictures := by
  rw [String.toList_intercalate]
  rw [List.map_map]
  simp [Function.comp_def]

def groups (text : String) : List (List Char) :=
  text.toList.splitOn ' '

theorem groups_intercalate {pictures : List (List Char)} (hne : pictures ≠ [])
    (h : ∀ p ∈ pictures, ' ' ∉ p) :
    groups (" ".intercalate (pictures.map String.ofList)) = pictures := by
  unfold groups
  rw [toList_intercalate_ofList]
  exact List.splitOn_intercalate ' ' h hne

def withoutSpaces (text : String) : String :=
  String.ofList (text.toList.filter (· != ' '))

theorem filter_intercalate {pictures : List (List Char)} (h : ∀ p ∈ pictures, ' ' ∉ p) :
    ([' '].intercalate pictures).filter (· != ' ') = pictures.flatten := by
  induction pictures with
  | nil => rfl
  | cons p pictures ih =>
    have hp : p.filter (· != ' ') = p := by
      rw [List.filter_eq_self]
      intro c hc
      rw [bne_iff_ne]
      rintro rfl
      exact h p List.mem_cons_self hc
    cases pictures with
    | nil => simp [hp]
    | cons q pictures =>
      rw [List.intercalate_cons_cons]
      rw [List.filter_append]
      rw [List.filter_append]
      rw [ih fun p hp => h p (List.mem_cons_of_mem _ hp)]
      rw [hp]
      simp

theorem withoutSpaces_intercalate {pictures : List (List Char)} (h : ∀ p ∈ pictures, ' ' ∉ p) :
    withoutSpaces (" ".intercalate (pictures.map String.ofList))
      = String.ofList pictures.flatten := by
  unfold withoutSpaces
  rw [toList_intercalate_ofList]
  rw [filter_intercalate h]

def ofPicture (text : String) : Code :=
  ⟨(withoutSpaces text).toList.map fun c => bit (c == '1')⟩

theorem ofPicture_eq {text : String} {c : Code} (h : withoutSpaces text = String.ofList c.picture) :
    ofPicture text = ofBytes c.bytes := by
  ext1
  unfold ofPicture
  rw [h]
  rw [String.toList_ofList]
  simp only [ofBytes, picture, activity, List.map_map]
  apply List.map_congr_left
  intro b _
  cases h : b != 0 with
  | false => simp [h]
  | true => simp [h]

end CalendarCode.Code
