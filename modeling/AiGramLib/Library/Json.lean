import Mathlib.Algebra.Order.Ring.Rat
import Mathlib.Data.List.Nodup

/-!
# Values that are written as JSON and read back

A `Coding` of a type has an encoder, a decoder, and the two facts that make it a coding: what is
written is read back, for the values that fit into the format, and only such values are read. The
codings here are those of strings, of 64-bit integers, of arrays, and of types with raw values.
A record is written as the object of its fields, and its fields are read one by one with
`decodeKey`, or `decodeKeyIfPresent` where they are optional; `member_record` says that each is
found again. A member that no key asks for is ignored, and an array is read only if each of its
elements is.
-/

/-- A value that a JSON parser gives. Of members with one key, the first one counts. -/
inductive Json where
  | null
  | bool (value : Bool)
  | number (value : Rat)
  | string (value : String)
  | array (items : List Json)
  | object (members : List (String × Json))

namespace Json

/-- The member of an object under a key. -/
def member : Json → String → Option Json
  | .object members, key => members.lookup key
  | _, _ => none

/-- The object with these fields; a field without a value is left out. -/
def record (fields : List (String × Option Json)) : Json :=
  .object (fields.filterMap fun field => field.2.map fun value => (field.1, value))

/-- A key that no field has is not found. -/
theorem member_record_of_not_mem {fields : List (String × Option Json)} {key : String}
    (h : key ∉ fields.map Prod.fst) : (record fields).member key = none := by
  show List.lookup key _ = none
  rw [List.lookup_eq_none_iff]
  intro entry hentry
  obtain ⟨field, hfield, hvalue⟩ := List.mem_filterMap.mp hentry
  obtain ⟨value, -, rfl⟩ := Option.map_eq_some_iff.mp hvalue
  have hne : key ≠ field.1 := fun heq => h (heq ▸ List.mem_map_of_mem hfield)
  simpa using hne

/-- Under the key of a field is its value, if it has one. -/
theorem member_record {fields : List (String × Option Json)}
    (hkeys : (fields.map Prod.fst).Nodup) {key : String} {value : Option Json}
    (h : (key, value) ∈ fields) : (record fields).member key = value := by
  induction fields with
  | nil => cases h
  | cons field rest ih =>
      obtain ⟨hfirst, hrest⟩ := List.nodup_cons.mp hkeys
      rcases List.mem_cons.mp h with rfl | hlater
      · cases value with
        | none => exact show (record rest).member key = none from member_record_of_not_mem hfirst
        | some value => simp [record, member]
      · have hne : key ≠ field.1 := fun heq => hfirst (heq ▸ List.mem_map_of_mem hlater)
        rw [← ih hrest hlater]
        obtain ⟨other, first⟩ := field
        cases first with
        | none => rfl
        | some first => simp [record, member, List.lookup_cons, beq_false_of_ne hne]

/-- An encoder and a decoder that belong together. -/
structure Coding (α : Type*) where
  encode : α → Json
  decode : Json → Option α
  /-- The values that the format can represent. -/
  fits : α → Prop
  decode_encode : ∀ {value}, fits value → decode (encode value) = some value
  fits_of_decode : ∀ {json value}, decode json = some value → fits value

namespace Coding

variable {α : Type*}

/-- Strings. -/
def string : Coding String where
  encode := .string
  decode
    | .string value => some value
    | _ => none
  fits _ := True
  decode_encode _ := rfl
  fits_of_decode _ := trivial

/-- Integers of 64 bits: a number is read if it is a whole one in range. -/
def int : Coding Int where
  encode value := .number value
  decode
    | .number value =>
        if value.den = 1 ∧ -2 ^ 63 ≤ value.num ∧ value.num < 2 ^ 63 then some value.num else none
    | _ => none
  fits value := -2 ^ 63 ≤ value ∧ value < 2 ^ 63
  decode_encode h := if_pos ⟨rfl, h⟩
  fits_of_decode := by
    intro json value h
    cases json with
    | number number =>
        dsimp only at h
        split at h
        · rename_i hrange
          cases h
          exact hrange.2
        · cases h
    | _ => cases h

/-- A list is read back if each of its elements is. -/
theorem map_m_decode_encode (coding : Coding α) {values : List α}
    (h : ∀ value ∈ values, coding.fits value) :
    (values.map coding.encode).mapM coding.decode = some values := by
  induction values with
  | nil => rfl
  | cons value rest ih =>
      obtain ⟨hvalue, hrest⟩ := List.forall_mem_cons.mp h
      simp [List.mapM_cons, coding.decode_encode hvalue, ih hrest]

theorem fits_of_map_m_decode (coding : Coding α) {items : List Json} {values : List α}
    (h : items.mapM coding.decode = some values) : ∀ value ∈ values, coding.fits value := by
  induction items generalizing values with
  | nil =>
      cases h
      simp
  | cons item rest ih =>
      rw [List.mapM_cons] at h
      obtain ⟨first, hfirst, h⟩ := Option.bind_eq_some_iff.mp h
      obtain ⟨others, hothers, h⟩ := Option.bind_eq_some_iff.mp h
      cases h
      exact List.forall_mem_cons.mpr ⟨coding.fits_of_decode hfirst, ih hothers⟩

/-- Arrays. -/
def array (coding : Coding α) : Coding (List α) where
  encode values := .array (values.map coding.encode)
  decode
    | .array items => items.mapM coding.decode
    | _ => none
  fits values := ∀ value ∈ values, coding.fits value
  decode_encode h := coding.map_m_decode_encode h
  fits_of_decode := by
    intro json values h
    cases json with
    | array items => exact coding.fits_of_map_m_decode h
    | _ => cases h

/-- A type whose values are written as their raw values. -/
def raw (rawValue : α → String) (all : List α)
    (hinjective : ∀ value other, rawValue value = rawValue other → value = other)
    (hall : ∀ value, value ∈ all) : Coding α where
  encode value := .string (rawValue value)
  decode
    | .string text => all.find? fun value => rawValue value == text
    | _ => none
  fits _ := True
  decode_encode := by
    intro value _
    obtain ⟨found, hfound⟩ : ∃ found, all.find? (fun other => rawValue other == rawValue value) =
        some found :=
      Option.isSome_iff_exists.mp (List.find?_isSome.mpr ⟨value, hall value, beq_self_eq_true _⟩)
    have hsame : rawValue found = rawValue value := by simpa using List.find?_some hfound
    exact hfound.trans (congrArg some (hinjective found value hsame))
  fits_of_decode _ := trivial

variable (coding : Coding α)

/-- The value under a key of a record. -/
def decodeKey (json : Json) (key : String) : Option α := (json.member key).bind coding.decode

/-- The value under a key that may be missing or null. -/
def decodeKeyIfPresent (json : Json) (key : String) : Option (Option α) :=
  match json.member key with
  | none | some .null => some none
  | some value => (coding.decode value).map some

variable {coding} {json same : Json} {key : String}

/-- What has been written under a key is read under it. -/
theorem decode_key_of_member {value : α} (hmember : json.member key = some (coding.encode value))
    (hfits : coding.fits value) : coding.decodeKey json key = some value := by
  rw [decodeKey, hmember]
  exact coding.decode_encode hfits

theorem decode_key_if_present_of_member {value : Option α}
    (hmember : json.member key = value.map coding.encode)
    (hfits : ∀ present ∈ value, coding.fits present)
    (hnull : ∀ present, coding.encode present ≠ .null) :
    coding.decodeKeyIfPresent json key = some value := by
  rw [decodeKeyIfPresent, hmember]
  cases value with
  | none => rfl
  | some present =>
      rw [Option.map_some]
      split
      · rename_i h
        cases h
      · rename_i h
        exact absurd (Option.some.inj h) (hnull present)
      · rename_i found _ h
        obtain rfl := Option.some.inj h
        rw [coding.decode_encode (hfits present rfl)]
        rfl

/-- A field of a record is read back. -/
theorem decode_key_record {fields : List (String × Option Json)}
    (hkeys : (fields.map Prod.fst).Nodup) {value : α}
    (hfield : (key, some (coding.encode value)) ∈ fields) (hfits : coding.fits value) :
    coding.decodeKey (record fields) key = some value :=
  decode_key_of_member (member_record hkeys hfield) hfits

/-- What is read under a key that may be missing fits. -/
theorem fits_of_decode_key_if_present {value : Option α}
    (h : coding.decodeKeyIfPresent json key = some value) : ∀ present ∈ value,
    coding.fits present := by
  unfold decodeKeyIfPresent at h
  split at h
  · cases h
    simp
  · cases h
    simp
  · obtain ⟨present, hpresent, rfl⟩ := Option.map_eq_some_iff.mp h
    intro other hother
    cases hother
    exact coding.fits_of_decode hpresent

end Coding

end Json
