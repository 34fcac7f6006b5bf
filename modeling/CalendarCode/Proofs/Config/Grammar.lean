import CalendarCode.Arith.Exact
import CalendarCode.Proofs.Config.RoundTrip

/-!
This module contains the grammar of configurations in JSON: which values say something under which
keys, and what is wrong with all others. Every key decides about a part of its own, so that what is
read depends neither on the other keys nor on the order of the fields.
-/

namespace CalendarCode

variable {α : Type}

namespace Json

theorem natural?_eq_some_iff {v : Json α} {n : UInt64} : v.natural? = some n ↔ v = .natural n := by
  cases v with
  | natural m => simp [natural?]
  | _ => simp [natural?]

theorem string?_eq_some_iff {v : Json α} {s : String} : v.string? = some s ↔ v = .string s := by
  cases v with
  | string t => simp [string?]
  | _ => simp [string?]

theorem mapM_string?_eq_some_iff {items : List (Json α)} {names : List String} :
    items.mapM string? = some names ↔ items = names.map .string := by
  induction items generalizing names with
  | nil => cases names <;> simp
  | cons v items ih => cases names <;> simp [string?_eq_some_iff, ih, Option.bind_eq_some_iff]

end Json

theorem DayNames.ofJson?_eq_some_iff {v : Json α} {names : DayNames} :
    ofJson? v = some names ↔ v = names.toJson := by
  constructor
  . intro h
    cases v with
    | string name =>
      cases h
      rfl
    | array items =>
      unfold ofJson? at h
      rw [Option.map_eq_some_iff] at h
      obtain ⟨texts, htexts, hnames⟩ := h
      rw [Json.mapM_string?_eq_some_iff] at htexts
      rw [← hnames]
      rw [htexts]
      rfl
    | _ => contradiction
  . intro h
    rw [h]
    exact names.ofJson?_toJson

namespace Setting

variable [Arith α]

inductive Means : Json α → Setting α → Prop where
  | disabled : Means (.natural 0) .disabled
  | width {w : Width} : w ≠ 0 → Means (.natural w) (.width w)
  | withRadius {w : Width} {v : Json α} {radius : α} : v.number? = some radius →
    Means (.array [.natural w, v]) (.withRadius w radius)

inductive Fault : Json α → ConfigFault α → Prop where
  | notWidth {v : Json α} : v.number?.isSome = true → v.natural? = none → Fault v (.notWidth v)
  | notWidthOfPair {first second : Json α} : first.natural? = none →
    Fault (.array [first, second]) (.notWidth first)
  | radiusNotNumber {w : Width} {v : Json α} : v.number? = none →
    Fault (.array [.natural w, v]) .radiusNotNumber
  | notPair {items : List (Json α)} : items.length ≠ 2 →
    Fault (.array items) (.notPair items.length)
  | notSetting {v : Json α} : v.number? = none → (∀ items, v ≠ .array items) →
    Fault v (.notSetting v)

theorem ofJson_of_means {v : Json α} {s : Setting α} (h : Means v s) (key : String) :
    ofJson key v = .ok s := by
  cases h with
  | disabled => rfl
  | @width w hw => simp [ofJson, readWidth, Json.natural?, Except.map, ofWidth, hw]
  | @withRadius w v radius hv =>
    simp only [ofJson, readWidth, Json.natural?, hv]
    rfl

theorem ofJson_of_fault {v : Json α} {e : ConfigFault α} (h : Fault v e) (key : String) :
    ofJson key v = .error (.inKey key e) := by
  cases h with
  | notWidth hnumber hnatural =>
    cases v with
    | natural n => contradiction
    | negative i => rfl
    | real x => rfl
    | _ => contradiction
  | notWidthOfPair hfirst =>
    simp only [ofJson, readWidth, hfirst]
    rfl
  | radiusNotNumber hv =>
    simp only [ofJson, readWidth, Json.natural?, hv]
    rfl
  | @notPair items hlength =>
    cases items with
    | nil => rfl
    | cons first items =>
      cases items with
      | nil => rfl
      | cons second items =>
        cases items with
        | nil => contradiction
        | cons third items => rfl
  | notSetting hnumber harray =>
    cases v with
    | array items => exact absurd rfl (harray items)
    | natural n => contradiction
    | negative i => contradiction
    | real x => contradiction
    | _ => rfl

theorem means_or_fault (v : Json α) : (∃ s, Means v s) ∨ ∃ e, Fault v e := by
  cases v with
  | natural n =>
    left
    by_cases hn : n = 0
    . rw [hn]
      exact ⟨_, .disabled⟩
    . exact ⟨_, .width hn⟩
  | array items =>
    by_cases hlength : items.length = 2
    . rw [List.length_eq_two] at hlength
      obtain ⟨first, second, hpair⟩ := hlength
      rw [hpair]
      cases hfirst : first.natural? with
      | none => exact .inr ⟨_, .notWidthOfPair hfirst⟩
      | some w =>
        rw [Json.natural?_eq_some_iff] at hfirst
        rw [hfirst]
        cases hsecond : second.number? with
        | none => exact .inr ⟨_, .radiusNotNumber hsecond⟩
        | some radius => exact .inl ⟨_, .withRadius hsecond⟩
    . exact .inr ⟨_, .notPair hlength⟩
  | negative i => exact .inr ⟨_, .notWidth rfl rfl⟩
  | real x => exact .inr ⟨_, .notWidth rfl rfl⟩
  | _ => exact .inr ⟨_, .notSetting rfl nofun⟩

theorem ofJson_follows (key : String) (v : Json α) :
    (∀ s, ofJson key v = .ok s ↔ Means v s) ∧
      ∀ e, ofJson key v = .error e ↔ ∃ fault, Fault v fault ∧ e = .inKey key fault := by
  apply follows_rules
  . intro s hs
    exact ofJson_of_means hs key
  . intro e he
    obtain ⟨fault, hfault, heq⟩ := he
    rw [heq]
    exact ofJson_of_fault hfault key
  . cases means_or_fault v with
    | inl hmeans =>
      left
      assumption
    | inr hfault =>
      obtain ⟨fault, hfault⟩ := hfault
      right
      exact ⟨_, fault, hfault, rfl⟩

end Setting

namespace CustomDays

inductive Means : Json α → CustomDays → Prop where
  | disabled : Means (.natural 0) .disabled
  | one {w : Width} {name : String} : Means (.array [.natural w, .string name])
    (.enabled w (.one name))
  | many {w : Width} {names : List String} : Means (.array [.natural w, .array (names.map .string)])
    (.enabled w (.many names))

inductive Fault : Json α → ConfigFault α → Prop where
  | notWidth {first second : Json α} : first.natural? = none →
    Fault (.array [first, second]) (.notWidth first)
  | notNames {w : Width} {v : Json α} : (∀ name, v ≠ .string name) →
    (∀ names : List String, v ≠ .array (names.map .string)) →
      Fault (.array [.natural w, v]) (.notDays (.array [.natural w, v]))
  | notPair {items : List (Json α)} : items.length ≠ 2 →
    Fault (.array items) (.notDays (.array items))
  | notDays {v : Json α} : v ≠ .natural 0 → (∀ items, v ≠ .array items) → Fault v (.notDays v)

theorem ofJson_of_means [Arith α] {v : Json α} {d : CustomDays} (h : Means v d) :
    ofJson v = .ok d := by
  cases h with
  | disabled => rfl
  | @one w name => exact ofJson_toJson (.enabled w (.one name))
  | @many w names => exact ofJson_toJson (.enabled w (.many names))

theorem ofJson_of_fault {v : Json α} {e : ConfigFault α} (h : Fault v e) :
    ofJson v = .error (.inKey Aspect.customDays.key e) := by
  cases h with
  | notWidth hfirst =>
    simp only [ofJson, Setting.readWidth, hfirst]
    rfl
  | @notNames w v hone hmany =>
    have hnames : DayNames.ofJson? v = none := by
      rw [Option.eq_none_iff_forall_ne_some]
      intro names hnames
      rw [DayNames.ofJson?_eq_some_iff] at hnames
      cases names with
      | one name => exact hone name hnames
      | many names => exact hmany names hnames
    simp only [ofJson, Setting.readWidth, Json.natural?, hnames]
    rfl
  | @notPair items hlength =>
    cases items with
    | nil => rfl
    | cons first items =>
      cases items with
      | nil => rfl
      | cons second items =>
        cases items with
        | nil => contradiction
        | cons third items => rfl
  | notDays hzero harray =>
    unfold ofJson
    split
    . contradiction
    . next width days => exact absurd rfl (harray [width, days])
    . rfl

theorem means_or_fault (v : Json α) : (∃ d, Means v d) ∨ ∃ e, Fault v e := by
  cases v with
  | natural n =>
    by_cases hn : n = 0
    . rw [hn]
      exact .inl ⟨_, .disabled⟩
    . refine .inr ⟨_, .notDays ?_ nofun⟩
      rw [Ne, Json.natural.injEq]
      exact hn
  | array items =>
    by_cases hlength : items.length = 2
    . rw [List.length_eq_two] at hlength
      obtain ⟨first, second, hpair⟩ := hlength
      rw [hpair]
      cases hfirst : first.natural? with
      | none => exact .inr ⟨_, .notWidth hfirst⟩
      | some w =>
        rw [Json.natural?_eq_some_iff] at hfirst
        rw [hfirst]
        cases hsecond : DayNames.ofJson? second with
        | none =>
          rw [Option.eq_none_iff_forall_ne_some] at hsecond
          simp only [ne_eq, DayNames.ofJson?_eq_some_iff] at hsecond
          refine .inr ⟨_, .notNames ?_ ?_⟩
          . intro name
            exact hsecond (.one name)
          . intro names
            exact hsecond (.many names)
        | some names =>
          rw [DayNames.ofJson?_eq_some_iff] at hsecond
          rw [hsecond]
          cases names with
          | one name => exact .inl ⟨_, .one⟩
          | many names => exact .inl ⟨_, .many⟩
    . exact .inr ⟨_, .notPair hlength⟩
  | _ => exact .inr ⟨_, .notDays nofun nofun⟩

theorem ofJson_follows [Arith α] (v : Json α) : (∀ d, ofJson v = .ok d ↔ Means v d) ∧
    ∀ e, ofJson v = .error e
      ↔ ∃ fault, Fault v fault ∧ e = .inKey Aspect.customDays.key fault := by
  apply follows_rules
  . intro d hd
    exact ofJson_of_means hd
  . intro e he
    obtain ⟨fault, hfault, heq⟩ := he
    rw [heq]
    exact ofJson_of_fault hfault
  . cases means_or_fault v with
    | inl hmeans =>
      left
      assumption
    | inr hfault =>
      obtain ⟨fault, hfault⟩ := hfault
      right
      exact ⟨_, fault, hfault, rfl⟩

end CustomDays

namespace Config

theorem setting_withSetting {a : Aspect} (ha : a ≠ .customDays) (c : Config α) (s : Setting α) :
    (c.withSetting a s).setting a = s := by
  cases a with
  | customDays => contradiction
  | _ => rfl

theorem taking_of_not_mem {b c d : Config α} {keys more : List String} {key : String}
    (h : key ∉ keys) (h' : key ∉ more) :
    (b.taking c keys).taking (b.taking d more) [key] = b.taking c keys := by
  simp only [taking, List.mem_singleton, mk.injEq]
  refine ⟨?_, ?_, ?_, ?_, ?_, ?_, ?_⟩
  all_goals grind

theorem setting_taking_of_not_mem {c : Config α} {a : Aspect} {keys : List String}
    (h : a.key ∉ keys) : (taking {} c keys).setting a = .disabled := by
  cases a with
  | customDays => rfl
  | _ => simp_all [taking, setting, Aspect.key]

theorem taking_congr {c d : Config α} {keys more : List String}
    (h : ∀ key, key ∈ keys ↔ key ∈ more) : c.taking d keys = c.taking d more := by
  simp only [taking, h]

variable [Arith α]

inductive Fits : String × Json α → Prop where
  | setting {a : Aspect} {v : Json α} {s : Setting α} : a ≠ .customDays → Setting.Means v s →
    Fits (a.key, v)
  | customDays {v : Json α} {d : CustomDays} : CustomDays.Means v d →
    Fits (Aspect.customDays.key, v)
  | name {s : String} : Fits ("name", .string s)

inductive Misfits : String × Json α → ConfigFault α → Prop where
  | setting {a : Aspect} {v : Json α} {e : ConfigFault α} : a ≠ .customDays → Setting.Fault v e →
    Misfits (a.key, v) (.inKey a.key e)
  | customDays {v : Json α} {e : ConfigFault α} : CustomDays.Fault v e →
    Misfits (Aspect.customDays.key, v) (.inKey Aspect.customDays.key e)
  | name {v : Json α} : (∀ s, v ≠ .string s) → Misfits ("name", v) .nameNotText
  | unknown {key : String} {v : Json α} : (∀ a : Aspect, key ≠ a.key) → key ≠ "name" →
    Misfits (key, v) (.unknownKey key)

theorem readField_setting {a : Aspect} (ha : a ≠ .customDays) (c : Config α) (v : Json α) :
    readField c (a.key, v) = (Setting.ofJson a.key v).map (c.withSetting a) := by
  cases a with
  | customDays => contradiction
  | _ => rfl

theorem readField_customDays (c : Config α) (v : Json α) : readField c (Aspect.customDays.key, v)
    = (CustomDays.ofJson v).map fun d => { c with customDays := d } := rfl

theorem readField_of_fits {field : String × Json α} (h : Fits field) (c : Config α) :
    ∃ d, readField c field = .ok d := by
  cases h with
  | setting ha hs =>
    rw [readField_setting ha]
    rw [Setting.ofJson_of_means hs]
    exact ⟨_, rfl⟩
  | customDays hd =>
    rw [readField_customDays]
    rw [CustomDays.ofJson_of_means hd]
    exact ⟨_, rfl⟩
  | name => exact ⟨_, rfl⟩

theorem readField_of_misfits {field : String × Json α} {e : ConfigFault α} (h : Misfits field e)
    (c : Config α) : readField c field = .error e := by
  cases h with
  | setting ha he =>
    rw [readField_setting ha]
    rw [Setting.ofJson_of_fault he]
    rfl
  | customDays he =>
    rw [readField_customDays]
    rw [CustomDays.ofJson_of_fault he]
    rfl
  | @name v hv =>
    cases v with
    | string s => exact absurd rfl (hv s)
    | _ => rfl
  | unknown haspect hname =>
    unfold readField
    simp only
    split
    . exact absurd rfl (haspect .season)
    . exact absurd rfl (haspect .dayOfWeek)
    . exact absurd rfl (haspect .weekend)
    . exact absurd rfl (haspect .customDays)
    . exact absurd rfl (haspect .holiday)
    . exact absurd rfl (haspect .timeOfDay)
    . contradiction
    . rfl

theorem fits_or_misfits (field : String × Json α) : Fits field ∨ ∃ e, Misfits field e := by
  obtain ⟨key, v⟩ := field
  by_cases haspect : ∃ a : Aspect, key = a.key
  . obtain ⟨a, ha⟩ := haspect
    rw [ha]
    by_cases hdays : a = .customDays
    . rw [hdays]
      cases CustomDays.means_or_fault v with
      | inl hmeans =>
        obtain ⟨d, hd⟩ := hmeans
        exact .inl (.customDays hd)
      | inr hfault =>
        obtain ⟨e, he⟩ := hfault
        exact .inr ⟨_, .customDays he⟩
    . cases Setting.means_or_fault v with
      | inl hmeans =>
        obtain ⟨s, hs⟩ := hmeans
        exact .inl (.setting hdays hs)
      | inr hfault =>
        obtain ⟨e, he⟩ := hfault
        exact .inr ⟨_, .setting hdays he⟩
  . rw [not_exists] at haspect
    by_cases hname : key = "name"
    . rw [hname]
      cases v with
      | string s => exact .inl .name
      | _ => exact .inr ⟨_, .name nofun⟩
    . exact .inr ⟨_, .unknown haspect hname⟩

theorem readField_follows (c : Config α) (field : String × Json α) :
    (∀ d, readField c field = .ok d ↔ Fits field ∧ readField c field = .ok d) ∧
      ∀ e, readField c field = .error e ↔ Misfits field e := by
  apply follows_rules
  . intro d hd
    exact hd.2
  . intro e he
    exact readField_of_misfits he c
  . cases fits_or_misfits field with
    | inl hfits =>
      obtain ⟨d, hd⟩ := readField_of_fits hfits c
      left
      exact ⟨d, hfits, hd⟩
    | inr hmisfits =>
      right
      assumption

theorem exists_readField_iff {c : Config α} {field : String × Json α} :
    (∃ d, readField c field = .ok d) ↔ Fits field := by
  constructor
  . intro h
    obtain ⟨d, hd⟩ := h
    exact (((readField_follows c field).1 d).mp hd).1
  . intro h
    exact readField_of_fits h c

theorem readField_eq_error_iff {c : Config α} {field : String × Json α} {e : ConfigFault α} :
    readField c field = .error e ↔ Misfits field e :=
  (readField_follows c field).2 e

theorem readField_error_congr (c : Config α) (field : String × Json α) (e : ConfigFault α) :
    readField c field = .error e ↔ readField {} field = .error e := by
  rw [readField_eq_error_iff]
  rw [readField_eq_error_iff]

theorem readField_self {c d : Config α} {field : String × Json α} (h : readField c field = .ok d) :
    readField d field = .ok d := by
  obtain ⟨key, v⟩ := field
  unfold readField at h ⊢
  simp only at h ⊢
  split at h
  case h_7 =>
    split at h
    . rw [← Except.ok.inj h]
    . contradiction
  case h_8 => contradiction
  all_goals
    rw [map_eq_ok_iff] at h
    obtain ⟨s, hs, hd⟩ := h
    rw [hs]
    rw [← hd]
    rfl

theorem readField_result {fields : List (String × Json α)} {b c : Config α}
    (hnodup : (fields.map (·.1)).Nodup) (h : fields.foldlM readField b = .ok c) :
    ∀ field ∈ fields, readField c field = .ok c := by
  induction fields generalizing b with
  | nil => nofun
  | cons field fields ih =>
    rw [List.map_cons] at hnodup
    rw [List.nodup_cons] at hnodup
    rw [List.foldlM_cons] at h
    rw [bind_eq_ok_iff] at h
    obtain ⟨d, hd, hrest⟩ := h
    have hread := ih hnodup.2 hrest
    -- the fields behind leave alone what the first one has decided
    have hc : d.taking c (fields.map (·.1)) = c := by
      rw [foldlM_readField hread] at hrest
      exact Except.ok.inj hrest
    have hsame : c.taking d [field.1] = c := by
      have hkeep := taking_of_not_mem (b := d) (c := c) (d := d) hnodup.1 List.not_mem_nil
      rw [taking_nil] at hkeep
      rwa [hc] at hkeep
    have hfirst : readField c field = .ok c := by
      rw [readField_eq_taking (readField_self hd)]
      rw [hsame]
    rw [List.forall_mem_cons]
    exact ⟨hfirst, hread⟩

/-- Whether a part of a configuration is what the value under its key says, or else a default. -/
structure IsPart {β : Type} (fields : List (String × Json α)) (key : String)
    (means : Json α → β → Prop) (default b : β) : Prop where
  given : ∀ v, (key, v) ∈ fields → means v b
  leftOut : key ∉ fields.map (·.1) → b = default

/-- Whether every part of a configuration comes from the field with its own key. -/
structure IsReadFrom (c : Config α) (fields : List (String × Json α)) : Prop where
  setting : ∀ a ≠ .customDays, IsPart fields a.key Setting.Means .disabled (c.setting a)
  customDays : IsPart fields Aspect.customDays.key CustomDays.Means .disabled c.customDays
  name : IsPart fields "name" (fun v s => v = .string s) "" c.name

section

variable {fields : List (String × Json α)} {c : Config α}

theorem isReadFrom_of_result (h : ∀ field ∈ fields, readField c field = .ok c)
    (hc : taking {} c (fields.map (·.1)) = c) : c.IsReadFrom fields where
  setting := by
    intro a ha
    constructor
    . intro v hv
      have hread := h _ hv
      rw [readField_setting ha] at hread
      rw [map_eq_ok_iff] at hread
      obtain ⟨s, hs, hself⟩ := hread
      rw [← hself]
      rw [setting_withSetting ha]
      exact ((Setting.ofJson_follows a.key v).1 s).mp hs
    . intro hkey
      rw [← hc]
      exact setting_taking_of_not_mem hkey
  customDays := by
    constructor
    . intro v hv
      have hread := h _ hv
      rw [readField_customDays] at hread
      rw [map_eq_ok_iff] at hread
      obtain ⟨d, hd, hself⟩ := hread
      rw [← hself]
      exact ((CustomDays.ofJson_follows v).1 d).mp hd
    . intro hkey
      rw [← hc]
      exact if_neg hkey
  name := by
    constructor
    . intro v hv
      have hread := h _ hv
      cases v with
      | string s =>
        rw [← Except.ok.inj hread]
      | _ => contradiction
    . intro hkey
      rw [← hc]
      exact if_neg hkey

theorem taking_result (hnodup : (fields.map (·.1)).Nodup) (h : ofJson (.object fields) = .ok c) :
    (∀ field ∈ fields, readField c field = .ok c) ∧ taking {} c (fields.map (·.1)) = c := by
  have hread := readField_result hnodup h
  refine ⟨hread, ?_⟩
  unfold ofJson at h
  simp only at h
  rw [foldlM_readField hread] at h
  exact Except.ok.inj h

theorem ofJson_perm {others : List (String × Json α)} (hnodup : (fields.map (·.1)).Nodup)
    (h : ofJson (.object fields) = .ok c) (hperm : others.Perm fields) :
    ofJson (.object others) = .ok c := by
  obtain ⟨hread, hc⟩ := taking_result hnodup h
  have hother : ∀ field ∈ others, readField c field = .ok c := by
    intro field hfield
    exact hread field (hperm.mem_iff.mp hfield)
  unfold ofJson
  simp only
  rw [foldlM_readField hother]
  rw [taking_congr fun key => (hperm.map (·.1)).mem_iff]
  rw [hc]

theorem taking_of_same_values {others : List (String × Json α)} {d : Config α} {key : String}
    (hnodup : (fields.map (·.1)).Nodup) (h : ofJson (.object fields) = .ok c)
    (hnodup' : (others.map (·.1)).Nodup) (h' : ofJson (.object others) = .ok d)
    (hkey : ∀ v, (key, v) ∈ fields ↔ (key, v) ∈ others) : c.taking d [key] = c := by
  obtain ⟨hread, hc⟩ := taking_result hnodup h
  obtain ⟨hread', hd⟩ := taking_result hnodup' h'
  by_cases hmem : key ∈ fields.map (·.1)
  . rw [List.mem_map] at hmem
    obtain ⟨⟨_, v⟩, hfield, hfirst⟩ := hmem
    cases hfirst
    have hself := hread _ hfield
    rw [readField_eq_taking (hread' _ ((hkey v).mp hfield))] at hself
    exact Except.ok.inj hself
  . have hmem' : key ∉ others.map (·.1) := by
      simp only [List.mem_map, not_exists, not_and, Prod.forall] at hmem ⊢
      intro k v hv hk
      rw [hk] at hv
      exact hmem key v ((hkey v).mpr hv) rfl
    rw [← hc]
    rw [← hd]
    exact taking_of_not_mem hmem hmem'

end

def IsGrammatical (v : Json α) : Prop :=
  ∃ fields, v = .object fields ∧ ∀ field ∈ fields, Fits field

/-- What is wrong with all other values. Of the fields of an object, the first misfit counts. -/
inductive IsFault : Json α → ConfigFault α → Prop where
  | notObject {v : Json α} : (∀ fields, v ≠ .object fields) → IsFault v (.notObject v)
  | field {front rest : List (String × Json α)} {field : String × Json α} {e : ConfigFault α} :
    (∀ f ∈ front, Fits f) → Misfits field e → IsFault (.object (front ++ field :: rest)) e

theorem exists_ofJson_iff (v : Json α) : (∃ c, ofJson v = .ok c) ↔ IsGrammatical v := by
  unfold IsGrammatical
  cases v with
  | object fields =>
    unfold ofJson
    simp only
    rw [exists_foldlM_eq_ok_iff readField_error_congr]
    simp [exists_readField_iff]
  | _ => simp [ofJson]

theorem ofJson_eq_error_iff {v : Json α} {e : ConfigFault α} :
    ofJson v = .error e ↔ IsFault v e := by
  cases v with
  | object fields =>
    unfold ofJson
    simp only
    rw [foldlM_eq_error_iff readField_error_congr]
    rw [mapM_eq_error_iff]
    simp only [exists_readField_iff, readField_eq_error_iff]
    constructor
    . rintro ⟨front, field, rest, rfl, hfront, hfield⟩
      exact .field hfront hfield
    . intro h
      cases h with
      | notObject hobject => exact absurd rfl (hobject fields)
      | field hfront hfield => exact ⟨_, _, _, rfl, hfront, hfield⟩
  | _ =>
    constructor
    . intro h
      cases h
      exact .notObject nofun
    . intro h
      cases h
      rfl

/--
An object says what a configuration is just if all of its fields do. Each part of the configuration
is then what the field with its own key says, whatever the other fields are and in whatever order.
If not, the first field that says nothing gives the fault.
-/
theorem ofJson_isGrammatical :
    (∀ v : Json α, (∃ c, ofJson v = .ok c) ↔ IsGrammatical v) ∧
    (∀ (v : Json α) (e : ConfigFault α), ofJson v = .error e ↔ IsFault v e) ∧
    ∀ (fields : List (String × Json α)) (c : Config α), (fields.map (·.1)).Nodup →
      ofJson (.object fields) = .ok c →
        c.IsReadFrom fields ∧
        (∀ others : List (String × Json α), others.Perm fields →
          ofJson (.object others) = .ok c) ∧
        ∀ (others : List (String × Json α)) (d : Config α), (others.map (·.1)).Nodup →
          ofJson (.object others) = .ok d →
            ∀ key, (∀ v, (key, v) ∈ fields ↔ (key, v) ∈ others) → c.taking d [key] = c := by
  refine ⟨exists_ofJson_iff, fun v e => ofJson_eq_error_iff, ?_⟩
  intro fields c hnodup h
  obtain ⟨hread, hc⟩ := taking_result hnodup h
  refine ⟨isReadFrom_of_result hread hc, ?_, ?_⟩
  . intro others hperm
    exact ofJson_perm hnodup h hperm
  . intro others d hnodup' h' key hkey
    exact taking_of_same_values hnodup h hnodup' h' hkey

def shiftFields : List (String × Json Rat) :=
  [("timeOfDay", .array [.natural 7, .real (3 / 2)]), ("season", .natural 0),
    ("customDays", .array [.natural 5, .array [.string "sat", .string "noday"]]),
    ("name", .string "shift")]

def shift : Config Rat where
  timeOfDay := .withRadius 7 (3 / 2)
  customDays := .enabled 5 (.many ["sat", "noday"])
  name := "shift"

def twoMisfits : List (String × Json Rat) :=
  [("season", .natural 3), ("weekend", .real 3), ("colour", .null)]

theorem ofJson_isGrammatical_shift :
    (∃ c : Config Rat, ofJson (.object shiftFields) = .ok c) ∧
    shift.IsReadFrom shiftFields ∧
    ofJson (.object shiftFields.reverse) = .ok shift ∧
    shift.taking {} ["season"] = shift ∧
    ofJson (.object twoMisfits) = .error (.inKey "weekend" (.notWidth (.real 3))) := by
  have hdays : CustomDays.Means (α := Rat)
      (.array [.natural 5, .array (["sat", "noday"].map .string)])
      (.enabled 5 (.many ["sat", "noday"])) := .many
  have hfits : ∀ field ∈ shiftFields, Fits field := by
    unfold shiftFields
    simp only [List.forall_mem_cons]
    refine ⟨?_, ?_, ?_, ?_, nofun⟩
    . exact .setting (a := .timeOfDay) nofun (.withRadius rfl)
    . exact .setting (a := .season) nofun .disabled
    . exact .customDays hdays
    . exact .name
  have hread : ofJson (.object shiftFields) = .ok shift := rfl
  have hnodup : (shiftFields.map (·.1)).Nodup := by decide
  obtain ⟨hparts, hperm, hother⟩ := ofJson_isGrammatical.2.2 shiftFields shift hnodup hread
  refine ⟨?_, hparts, ?_, ?_, ?_⟩
  . apply (ofJson_isGrammatical.1 _).mpr
    exact ⟨shiftFields, rfl, hfits⟩
  . exact hperm _ (List.reverse_perm shiftFields)
  . apply hother [("season", .natural 0)] {} (by decide) rfl
    intro v
    simp [shiftFields]
  . apply (ofJson_isGrammatical.2.1 _ _).mpr
    have hsplit : twoMisfits
        = [("season", .natural 3)] ++ ("weekend", .real 3) :: [("colour", .null)] := rfl
    rw [hsplit]
    apply IsFault.field
    . rw [List.forall_mem_singleton]
      exact .setting (a := .season) nofun (.width (by decide))
    . exact .setting (a := .weekend) nofun (.notWidth rfl rfl)

end Config

end CalendarCode
