import Mathlib.Data.List.Forall2

/-!
This module contains the laws of operations that give a result or a fault: when a sequence of them
has a result, what the results of its parts are then, and which part the fault comes from otherwise.
-/

namespace CalendarCode

variable {ε α β : Type}

@[simp]
theorem ok_bind (a : α) (f : α → Except ε β) : (.ok a : Except ε α) >>= f = f a := rfl

theorem bind_eq_ok_iff {x : Except ε α} {f : α → Except ε β} {b : β} :
    x >>= f = .ok b ↔ ∃ a, x = .ok a ∧ f a = .ok b := by
  cases x with
  | error e =>
    constructor
    . intro h
      contradiction
    . rintro ⟨a, h, -⟩
      contradiction
  | ok a =>
    constructor
    . intro h
      exact ⟨a, rfl, h⟩
    . rintro ⟨_, h, hf⟩
      cases h
      exact hf

theorem bind_eq_error_iff {x : Except ε α} {f : α → Except ε β} {e : ε} :
    x >>= f = .error e ↔ x = .error e ∨ ∃ a, x = .ok a ∧ f a = .error e := by
  cases x with
  | error e' =>
    constructor
    . intro h
      left
      exact congrArg Except.error (Except.error.inj h)
    . rintro (h | ⟨_, h, -⟩)
      . cases h
        rfl
      . contradiction
  | ok a =>
    constructor
    . intro h
      right
      exact ⟨a, rfl, h⟩
    . rintro (h | ⟨_, h, hf⟩)
      . contradiction
      . cases h
        exact hf

theorem exists_eq_ok_of_toOption {x : Except ε α} {f : α → β} {b : β}
    (h : x.toOption.map f = some b) : ∃ a, x = .ok a ∧ f a = b := by
  cases x with
  | error e => contradiction
  | ok a => exact ⟨a, rfl, Option.some.inj h⟩

theorem map_eq_ok_iff {x : Except ε α} {f : α → β} {b : β} :
    x.map f = .ok b ↔ ∃ a, x = .ok a ∧ f a = b := by
  cases x with
  | error e =>
    constructor
    . intro h
      contradiction
    . rintro ⟨a, h, -⟩
      contradiction
  | ok a =>
    constructor
    . intro h
      exact ⟨a, rfl, Except.ok.inj h⟩
    . rintro ⟨_, h, rfl⟩
      cases h
      rfl

theorem mapError_eq_error_iff {δ : Type} {x : Except ε α} {f : ε → δ} {e : δ} :
    x.mapError f = .error e ↔ ∃ cause, x = .error cause ∧ e = f cause := by
  cases x with
  | error cause => simp [Except.mapError, eq_comm]
  | ok a => simp [Except.mapError]

theorem mapM_eq_ok_iff {f : α → Except ε β} {as : List α} {bs : List β} :
    as.mapM f = .ok bs ↔ List.Forall₂ (fun a b => f a = .ok b) as bs := by
  induction as generalizing bs with
  | nil =>
    rw [List.mapM_nil]
    rw [List.forall₂_nil_left_iff]
    constructor
    . intro h
      cases h
      rfl
    . rintro rfl
      rfl
  | cons a as ih =>
    rw [List.mapM_cons]
    rw [bind_eq_ok_iff]
    rw [List.forall₂_cons_left_iff]
    constructor
    . rintro ⟨b, hb, hrest⟩
      rw [bind_eq_ok_iff] at hrest
      obtain ⟨rest, hrest, hcons⟩ := hrest
      rw [ih] at hrest
      cases hcons
      exact ⟨b, rest, hb, hrest, rfl⟩
    . rintro ⟨b, rest, hb, hrest, rfl⟩
      rw [← ih] at hrest
      refine ⟨b, hb, ?_⟩
      rw [bind_eq_ok_iff]
      exact ⟨rest, hrest, rfl⟩

theorem exists_of_mem_mapM {f : α → Except ε β} {as : List α} {bs : List β}
    (h : as.mapM f = .ok bs) {b : β} (hb : b ∈ bs) : ∃ a ∈ as, f a = .ok b := by
  rw [mapM_eq_ok_iff] at h
  induction h with
  | nil => contradiction
  | @cons a _ as _ ha _ ih =>
    rcases List.mem_cons.mp hb with rfl | hb
    . exact ⟨a, List.mem_cons_self, ha⟩
    . obtain ⟨a', ha', hok⟩ := ih hb
      exact ⟨a', List.mem_cons_of_mem a ha', hok⟩

theorem mapM_eq_error_iff {f : α → Except ε β} {as : List α} {e : ε} :
    as.mapM f = .error e ↔ ∃ front a rest, as = front ++ a :: rest ∧
      (∀ b ∈ front, ∃ v, f b = .ok v) ∧ f a = .error e := by
  induction as with
  | nil =>
    rw [List.mapM_nil]
    constructor
    . intro h
      contradiction
    . rintro ⟨front, a, rest, h, -⟩
      simp at h
  | cons a as ih =>
    rw [List.mapM_cons]
    rw [bind_eq_error_iff]
    constructor
    . rintro (h | ⟨b, hb, hrest⟩)
      . exact ⟨[], a, as, rfl, nofun, h⟩
      . rw [bind_eq_error_iff] at hrest
        rcases hrest with hrest | ⟨bs, -, hcons⟩
        . obtain ⟨front, c, rest, rfl, hfront, hc⟩ := ih.mp hrest
          refine ⟨a :: front, c, rest, rfl, ?_, hc⟩
          rw [List.forall_mem_cons]
          exact ⟨⟨b, hb⟩, hfront⟩
        . contradiction
    . rintro ⟨front, c, rest, h, hfront, hc⟩
      cases front with
      | nil =>
        cases h
        left
        exact hc
      | cons b front =>
        cases h
        rw [List.forall_mem_cons] at hfront
        obtain ⟨⟨v, hv⟩, hfront⟩ := hfront
        right
        refine ⟨v, hv, ?_⟩
        rw [bind_eq_error_iff]
        left
        rw [ih]
        exact ⟨front, c, rest, rfl, hfront, hc⟩

theorem exists_mapM_eq_ok_iff {f : α → Except ε β} {as : List α} :
    (∃ bs, as.mapM f = .ok bs) ↔ ∀ a ∈ as, ∃ b, f a = .ok b := by
  constructor
  . rintro ⟨bs, h⟩
    rw [mapM_eq_ok_iff] at h
    induction h with
    | nil => nofun
    | @cons _ b _ _ hb _ ih =>
      rw [List.forall_mem_cons]
      exact ⟨⟨b, hb⟩, ih⟩
  . intro h
    cases hmap : as.mapM f with
    | ok bs => exact ⟨bs, rfl⟩
    | error e =>
      obtain ⟨front, a, rest, rfl, -, ha⟩ := mapM_eq_error_iff.mp hmap
      obtain ⟨b, hb⟩ := h a (List.mem_append_right front List.mem_cons_self)
      rw [ha] at hb
      contradiction

theorem exists_eq_ok_iff {x : Except ε α} : (∃ a, x = .ok a) ↔ ∀ e, x ≠ .error e := by
  cases x with
  | error e => simp
  | ok a => simp

/-- Rules that an operation keeps to say all about it if there is one for every case. -/
theorem follows_rules {x : Except ε α} {P : α → Prop} {Q : ε → Prop}
    (hok : ∀ a, P a → x = .ok a) (herror : ∀ e, Q e → x = .error e)
    (h : (∃ a, P a) ∨ ∃ e, Q e) : (∀ a, x = .ok a ↔ P a) ∧ ∀ e, x = .error e ↔ Q e := by
  cases h with
  | inl h =>
    obtain ⟨a, ha⟩ := h
    have hx := hok a ha
    subst hx
    constructor
    . intro b
      constructor
      . intro hb
        rwa [← Except.ok.inj hb]
      . exact hok b
    . intro e
      constructor
      . nofun
      . exact herror e
  | inr h =>
    obtain ⟨e, he⟩ := h
    have hx := herror e he
    subst hx
    constructor
    . intro a
      constructor
      . nofun
      . exact hok a
    . intro e'
      constructor
      . intro he'
        rwa [← Except.error.inj he']
      . exact herror e'

/-- A loop whose steps fail no matter what came out of those before fails like a sequence. -/
theorem foldlM_eq_error_iff {σ : Type} {f : σ → α → Except ε σ} {check : α → Except ε β}
    (h : ∀ s a e, f s a = .error e ↔ check a = .error e) {as : List α} {s : σ} {e : ε} :
    as.foldlM f s = .error e ↔ as.mapM check = .error e := by
  induction as generalizing s with
  | nil =>
    constructor
    . nofun
    . nofun
  | cons a as ih =>
    rw [List.foldlM_cons]
    rw [List.mapM_cons]
    rw [bind_eq_error_iff]
    rw [bind_eq_error_iff]
    have hcheck := h s a
    cases hs : f s a with
    | error e' =>
      rw [hs] at hcheck
      rw [(hcheck e').mp rfl]
      simp
    | ok t =>
      cases ha : check a with
      | error e' =>
        rw [← hcheck, hs] at ha
        contradiction
      | ok b => simp [ih, bind_eq_error_iff, pure, Except.pure]

theorem exists_foldlM_eq_ok_iff {σ : Type} {f : σ → α → Except ε σ} {check : α → Except ε β}
    (h : ∀ s a e, f s a = .error e ↔ check a = .error e) {as : List α} {s : σ} :
    (∃ t, as.foldlM f s = .ok t) ↔ ∀ a ∈ as, ∃ b, check a = .ok b := by
  rw [← exists_mapM_eq_ok_iff]
  rw [exists_eq_ok_iff]
  rw [exists_eq_ok_iff]
  simp only [ne_eq, foldlM_eq_error_iff h]

theorem mapM_mapError {δ : Type} (g : ε → δ) (f : α → Except ε β) (as : List α) :
    (as.mapM fun a => (f a).mapError g) = (as.mapM f).mapError g := by
  induction as with
  | nil => rfl
  | cons a as ih =>
    rw [List.mapM_cons]
    rw [List.mapM_cons]
    rw [ih]
    cases f a with
    | error e => rfl
    | ok b =>
      cases as.mapM f with
      | error e => rfl
      | ok bs => rfl

theorem mapM_eq_ok_map {f : α → Except ε β} {g : α → β} {as : List α}
    (h : ∀ a ∈ as, f a = .ok (g a)) : as.mapM f = .ok (as.map g) := by
  rw [mapM_eq_ok_iff]
  rw [List.forall₂_map_right_iff]
  rw [List.forall₂_same]
  exact h

/-- A loop all of whose steps have a result as long as something holds that all of them keep. -/
theorem foldlM_eq_ok_foldl {σ : Type} {P : σ → Prop} {f : σ → α → Except ε σ} {g : σ → α → σ}
    {as : List α} {s : σ} (hstep : ∀ a ∈ as, ∀ s, P s → f s a = .ok (g s a) ∧ P (g s a))
    (h : P s) : as.foldlM f s = .ok (as.foldl g s) := by
  induction as generalizing s with
  | nil => rfl
  | cons a as ih =>
    obtain ⟨ha, hkeeps⟩ := hstep a List.mem_cons_self s h
    rw [List.foldlM_cons]
    rw [ha]
    rw [List.foldl_cons]
    exact ih (fun b hb => hstep b (List.mem_cons_of_mem a hb)) hkeeps

theorem allM_eq_ok_all {f : α → Except ε Bool} {g : α → Bool} {as : List α}
    (h : ∀ a ∈ as, f a = .ok (g a)) : as.allM f = .ok (as.all g) := by
  induction as with
  | nil => rfl
  | cons a as ih =>
    have ha := h a List.mem_cons_self
    have has := ih fun b hb => h b (List.mem_cons_of_mem a hb)
    unfold List.allM
    rw [ha]
    rw [List.all_cons]
    cases g a with
    | false => rfl
    | true => exact has

end CalendarCode
