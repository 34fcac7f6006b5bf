import CalendarCode.Proofs.Timestamp.Written
import Mathlib.Data.List.Pairwise

/-!
This module contains that the layouts of timestamps can be tried in any order. Two layouts with a
common beginning take the same from a text as long as they are the same, so what they can disagree
about is decided by what follows. There the next character tells them apart, or the text is at its
end and neither of them takes anything.
-/

namespace CalendarCode

theorem findSome?_eq_some_iff {β γ : Type} {f : β → Option γ} {xs : List β}
    (hagree : ∀ x ∈ xs, ∀ y ∈ xs, ∀ a b, f x = some a → f y = some b → a = b) {a : γ} :
    xs.findSome? f = some a ↔ ∃ x ∈ xs, f x = some a := by
  constructor
  . intro h
    apply List.exists_of_findSome?_eq_some h
  . intro h
    obtain ⟨x, hx, ha⟩ := h
    have hsome : (xs.findSome? f).isSome = true := by
      rw [List.findSome?_isSome_iff]
      exact ⟨x, hx, by rw [ha]; rfl⟩
    rw [Option.isSome_iff_exists] at hsome
    obtain ⟨b, hb⟩ := hsome
    obtain ⟨y, hy, hyb⟩ := List.exists_of_findSome?_eq_some hb
    rw [hb]
    rw [hagree x hx y hy a b ha hyb]

namespace Timestamp

namespace Layout

def read? (layout : Layout) (n : Numbers) (cs : List Char) : Option Moment :=
  (layout.take? n cs).bind finish

@[simp]
theorem read?_nil (n : Numbers) : read? [] n [] = n.moment? := rfl

@[simp]
theorem read?_nil_cons (n : Numbers) (c : Char) (cs : List Char) :
    read? [] n (c :: cs) = none := rfl

theorem read?_append (first last : Layout) (n : Numbers) (cs : List Char) :
    (first ++ last).read? n cs = (first.take? n cs).bind fun r => last.read? r.1 r.2 := by
  unfold read?
  rw [take?_append]
  rw [Option.bind_assoc]

def Agree (l l' : Layout) : Prop :=
  ∀ (n : Numbers) (cs : List Char) (m m' : Moment),
    l.read? n cs = some m → l'.read? n cs = some m' → m = m'

def Exclude (l l' : Layout) : Prop :=
  ∀ (n : Numbers) (cs : List Char) (m : Moment), l.read? n cs = some m → l'.read? n cs = none

theorem Agree.refl (l : Layout) : l.Agree l := by
  intro n cs m m' hm hm'
  rw [hm] at hm'
  apply Option.some.inj hm'

theorem Agree.symm {l l' : Layout} (h : l.Agree l') : l'.Agree l := by
  intro n cs m m' hm hm'
  rw [h n cs m' m hm' hm]

instance : Std.Symm Agree where
  symm := by
    intro l l'
    apply Agree.symm

theorem Exclude.agree {l l' : Layout} (h : l.Exclude l') : l.Agree l' := by
  intro n cs m m' hm hm'
  rw [h n cs m hm] at hm'
  contradiction

theorem Agree.append {l l' : Layout} (h : l.Agree l') (first : Layout) :
    (first ++ l).Agree (first ++ l') := by
  intro n cs m m' hm hm'
  rw [read?_append] at hm hm'
  cases hfirst : first.take? n cs with
  | none =>
    rw [hfirst] at hm
    contradiction
  | some r =>
    rw [hfirst] at hm hm'
    apply h r.1 r.2
    . exact hm
    . exact hm'

theorem Exclude.append {l l' : Layout} (h : l.Exclude l') (first : Layout) :
    (first ++ l).Exclude (first ++ l') := by
  intro n cs m hm
  rw [read?_append] at hm ⊢
  cases hfirst : first.take? n cs with
  | none => rfl
  | some r =>
    rw [hfirst] at hm
    apply h r.1 r.2
    exact hm

theorem exclude_of_nil {l : Layout} (h : ∀ n, l.read? n [] = none) : Exclude [] l := by
  intro n cs m hm
  cases cs with
  | nil => apply h
  | cons c cs => contradiction

theorem read?_literal_nil (c : Char) (l : Layout) (n : Numbers) :
    read? (.literal c :: l) n [] = none := rfl

theorem read?_blank_hour_nil (l : Layout) (n : Numbers) :
    read? (.blank :: .hour :: l) n [] = none := rfl

/-- An hour starts with a digit, after white space, and a letter is neither. -/
theorem exclude_literal {c : Char} (hblank : Text.isBlank c = false) (hdigit : c.isDigit = false)
    (l l' : Layout) : Exclude (.literal c :: l) (.blank :: .hour :: l') := by
  intro n cs m hm
  cases cs with
  | nil => contradiction
  | cons d cs =>
    unfold read? at hm ⊢
    by_cases hcd : c = d
    . rw [← hcd]
      rw [take?_blank_cons]
      rw [take?_hour_eq_none hblank hdigit]
      rfl
    . rw [take?_literal_ne hcd] at hm
      contradiction

theorem agree_fraction : Agree [] [.fraction] := by
  intro n cs m m' hm hm'
  cases cs with
  | nil =>
    apply Agree.refl [] n []
    . exact hm
    . exact hm'
  | cons c cs => contradiction

end Layout

theorem pairwise_agree_clocks : clocks.Pairwise Layout.Agree := by
  have hminute : ∀ rest : Layout, (clock ++ .literal ':' :: rest).Agree clock := by
    intro rest
    apply Layout.Agree.symm
    rw [← List.append_nil clock]
    rw [List.append_assoc]
    apply Layout.Exclude.agree
    apply Layout.Exclude.append
    apply Layout.exclude_of_nil
    apply Layout.read?_literal_nil
  have hfraction : clockWithSeconds.Agree clockWithFraction := by
    rw [← List.append_nil clockWithSeconds]
    apply Layout.Agree.append
    apply Layout.agree_fraction
  unfold clocks
  rw [List.pairwise_cons]
  constructor
  . intro time htime
    simp only [List.mem_cons, List.not_mem_nil, or_false] at htime
    rcases htime with rfl | rfl
    . exact hfraction
    . apply hminute
  . rw [List.pairwise_pair]
    apply hminute [.second, .fraction]

theorem agree_clocks {time time' : Layout} (h : time ∈ clocks) (h' : time' ∈ clocks) :
    time.Agree time' := by
  apply pairwise_agree_clocks.forall_of_forall
  . intro l _
    apply Layout.Agree.refl
  . exact h
  . exact h'

theorem mem_dateTimes {l : Layout} : l ∈ dateTimes ↔
    ∃ time ∈ clocks, l = date ++ .blank :: time ∨ l = date ++ .literal 'T' :: time := by
  simp only [dateTimes, clocks, List.mem_flatMap, List.mem_cons, List.not_mem_nil, or_false]

theorem agree_dateTimes {l l' : Layout} (h : l ∈ dateTimes) (h' : l' ∈ dateTimes) :
    l.Agree l' := by
  rw [mem_dateTimes] at h h'
  obtain ⟨time, htime, hl⟩ := h
  obtain ⟨time', htime', hl'⟩ := h'
  have hagree := agree_clocks htime htime'
  obtain ⟨rest, hrest⟩ := exists_hour_cons htime
  obtain ⟨rest', hrest'⟩ := exists_hour_cons htime'
  rcases hl with rfl | rfl
  . rcases hl' with rfl | rfl
    . apply Layout.Agree.append (hagree.append [.blank])
    . rw [hrest]
      apply Layout.Agree.symm
      apply Layout.Exclude.agree
      apply Layout.Exclude.append
      apply Layout.exclude_literal
      . decide
      . decide
  . rcases hl' with rfl | rfl
    . rw [hrest']
      apply Layout.Exclude.agree
      apply Layout.Exclude.append
      apply Layout.exclude_literal
      . decide
      . decide
    . apply Layout.Agree.append (hagree.append [.literal 'T'])

theorem exclude_date {l : Layout} (h : l ∈ dateTimes) : date.Exclude l := by
  rw [mem_dateTimes] at h
  obtain ⟨time, htime, hl⟩ := h
  obtain ⟨rest, hrest⟩ := exists_hour_cons htime
  rw [← List.append_nil date]
  rcases hl with rfl | rfl
  . rw [hrest]
    apply Layout.Exclude.append
    apply Layout.exclude_of_nil
    apply Layout.read?_blank_hour_nil
  . apply Layout.Exclude.append
    apply Layout.exclude_of_nil
    apply Layout.read?_literal_nil

theorem agree_layouts {l l' : Layout} (h : l ∈ layouts) (h' : l' ∈ layouts) : l.Agree l' := by
  simp only [layouts, List.mem_append, List.mem_singleton] at h h'
  rcases h with h | rfl
  . rcases h' with h' | rfl
    . apply agree_dateTimes h h'
    . apply Layout.Agree.symm
      apply Layout.Exclude.agree
      apply exclude_date h
  . rcases h' with h' | rfl
    . apply Layout.Exclude.agree
      apply exclude_date h'
    . apply Layout.Agree.refl

theorem moment?_eq_some_iff {order : List Layout} (h : order.Perm layouts) {cs : List Char}
    {m : Moment} : moment? order cs = some m ↔ ∃ l ∈ layouts, l.moment? cs = some m := by
  have hagree : ∀ l ∈ order, ∀ l' ∈ order, ∀ m m',
      l.moment? cs = some m → l'.moment? cs = some m' → m = m' := by
    intro l hl l' hl' m m'
    apply agree_layouts
    . rwa [← h.mem_iff]
    . rwa [← h.mem_iff]
  unfold moment?
  rw [findSome?_eq_some_iff hagree]
  simp only [h.mem_iff]

theorem moment?_of_perm {order : List Layout} (h : order.Perm layouts) (cs : List Char) :
    moment? order cs = moment? layouts cs := by
  apply Option.ext
  intro m
  rw [moment?_eq_some_iff h]
  rw [moment?_eq_some_iff (List.Perm.refl layouts)]

end Timestamp

namespace Input

open Timestamp

section

variable {α : Type}

def ofTextBy (order : List Timestamp.Layout) (text : String) : Except (Error α) Input :=
  match Text.trim text.toList with
  | [] => .ok none
  | cs =>
    match Timestamp.moment? order cs with
    | some m => .ok (some m)
    | none => .error (.input (.notTimestamp (String.ofList cs)))

theorem ofTextBy_layouts (text : String) :
    (ofTextBy layouts text : Except (Error α) Input) = ofText text := rfl

theorem ofTextBy_of_moment? {order order' : List Timestamp.Layout} {text : String}
    (h : Timestamp.moment? order (Text.trim text.toList)
      = Timestamp.moment? order' (Text.trim text.toList)) :
    (ofTextBy order text : Except (Error α) Input) = ofTextBy order' text := by
  unfold ofTextBy
  split
  . rfl
  . next cs hcs =>
    rw [h]

theorem ofTextBy_of_ne_nil (order : List Timestamp.Layout) {text : String}
    (h : Text.trim text.toList ≠ []) : (ofTextBy order text : Except (Error α) Input) =
      match Timestamp.moment? order (Text.trim text.toList) with
      | some m => .ok (some m)
      | none => .error (.input (.notTimestamp (String.ofList (Text.trim text.toList)))) := by
  unfold ofTextBy
  split
  . contradiction
  . rfl

theorem ofTextBy_eq_some_iff {order : List Timestamp.Layout} (horder : order.Perm layouts)
    {text : String} (h : Text.trim text.toList ≠ []) (m : Moment) :
    (ofTextBy order text : Except (Error α) Input) = .ok (some m) ↔
      ∃ l ∈ layouts, l.moment? (Text.trim text.toList) = some m := by
  rw [← moment?_eq_some_iff horder]
  rw [ofTextBy_of_ne_nil order h]
  split
  . next hm => simp [hm]
  . next hnone => simp [hnone]

theorem ofTextBy_eq_error_iff {order : List Timestamp.Layout} (horder : order.Perm layouts)
    {text : String} (h : Text.trim text.toList ≠ []) :
    (ofTextBy order text : Except (Error α) Input)
        = .error (.input (.notTimestamp (String.ofList (Text.trim text.toList)))) ↔
      ∀ l ∈ layouts, l.moment? (Text.trim text.toList) = none := by
  rw [← List.findSome?_eq_none_iff]
  rw [ofTextBy_of_ne_nil order h]
  rw [moment?_of_perm horder]
  unfold Timestamp.moment?
  split
  . next hm => simp [hm]
  . next hnone => simp [hnone]

end

/--
No two layouts read different moments from the same text, and none of those with a time reads what a
date alone does. So the order in which they are tried does not matter.
-/
theorem ofTextBy_of_perm :
    (∀ l ∈ dateTimes, ∀ l' ∈ dateTimes, ∀ (cs : List Char) (m m' : Moment),
      l.moment? cs = some m → l'.moment? cs = some m' → m = m') ∧
    (∀ l ∈ dateTimes, ∀ (cs : List Char) (m : Moment),
      l.moment? cs = some m → date.moment? cs = none) ∧
    ∀ {α : Type} (order : List Timestamp.Layout), order.Perm layouts → ∀ text : String,
      (ofTextBy order text : Except (Error α) Input) = ofText text ∧
      (Text.trim text.toList ≠ [] →
        (∀ m, (ofTextBy order text : Except (Error α) Input) = .ok (some m) ↔
          ∃ l ∈ layouts, l.moment? (Text.trim text.toList) = some m) ∧
        ((ofTextBy order text : Except (Error α) Input)
            = .error (.input (.notTimestamp (String.ofList (Text.trim text.toList)))) ↔
          ∀ l ∈ layouts, l.moment? (Text.trim text.toList) = none)) := by
  refine ⟨?_, ?_, ?_⟩
  . intro l hl l' hl' cs
    apply agree_dateTimes hl hl'
  . intro l hl cs m hm
    cases hdate : date.moment? cs with
    | none => rfl
    | some m' =>
      have hnone : l.moment? cs = none := exclude_date hl {} cs m' hdate
      rw [hm] at hnone
      contradiction
  . intro α order horder text
    constructor
    . rw [← ofTextBy_layouts]
      apply ofTextBy_of_moment?
      apply moment?_of_perm horder
    . intro h
      constructor
      . apply ofTextBy_eq_some_iff horder h
      . apply ofTextBy_eq_error_iff horder h

/-- A leap second without its fraction follows two layouts, and a month alone follows none. -/
theorem ofTextBy_of_perm_reverse :
    let cs := "2016-12-31 23:59: 60".toList
    let l : Timestamp.Layout := date ++ .blank :: clockWithSeconds
    let l' : Timestamp.Layout := date ++ .blank :: clockWithFraction
    let m : Moment := ⟨⟨2016, 12, 31, by decide, by decide, by decide, by decide⟩,
      ⟨23, 59, 59, 1000000000, by decide, by decide, by decide, by decide⟩⟩
    layouts.reverse.Perm layouts ∧ l ∈ dateTimes ∧ l' ∈ dateTimes ∧ l.moment? cs = some m ∧
      (∃ m', l'.moment? cs = some m' ∧ m = m') ∧ date.moment? cs = none ∧
      (ofTextBy layouts.reverse "\t2016-12-31 23:59: 60\n" : Except (Error Rat) Input)
        = .ok (some m) ∧
      (ofTextBy layouts.reverse " 2016-12 " : Except (Error Rat) Input)
        = .error (.input (.notTimestamp "2016-12")) := by
  intro cs l l' m
  obtain ⟨hagree, hdate, hperm⟩ := ofTextBy_of_perm
  have horder := List.reverse_perm layouts
  have hl : l ∈ dateTimes := by decide
  have hl' : l' ∈ dateTimes := by decide
  have hm : l.moment? cs = some m := by decide
  have hm' : l'.moment? cs = some m := by decide
  obtain ⟨-, hread⟩ := hperm (α := Rat) layouts.reverse horder "\t2016-12-31 23:59: 60\n"
  obtain ⟨-, hfail⟩ := hperm (α := Rat) layouts.reverse horder " 2016-12 "
  have htrim : Text.trim "\t2016-12-31 23:59: 60\n".toList = cs := by decide
  have hmonth : Text.trim " 2016-12 ".toList = "2016-12".toList := by decide
  refine ⟨horder, hl, hl', hm, ⟨m, hm', ?_⟩, ?_, ?_, ?_⟩
  . apply hagree l hl l' hl' cs m m hm hm'
  . apply hdate l hl cs m hm
  . rw [htrim] at hread
    apply ((hread (by decide)).1 m).mpr
    exact ⟨l, List.mem_append_left _ hl, hm⟩
  . rw [hmonth] at hfail
    apply (hfail (by decide)).2.mpr
    decide

end Input

end CalendarCode
