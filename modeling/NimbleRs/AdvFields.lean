import NimbleRs.Singleton
import Mathlib.Tactic

/-!
# Advertising fields

The conversion of `BleAdvFields` into the record that C encodes an advertising payload from,
where a byte string is a pointer with an 8-bit length. A pointer is the bytes that it points
to, or `none`.
-/
namespace NimbleRs.Gap
open Ble (BleError)

/-- `str::as_bytes` -/
def asBytes (s : String) : List UInt8 := s.toByteArray.data.toList

structure BleAdvFields where
  flags : UInt8
  name : Option String
  txPowerLevel : Option Int8
  appearance : Option UInt16
  serviceDataUuid16 : Option (List UInt8)
  manufacturerData : Option (List UInt8)

/-- The fields of `ble_hs_adv_fields` that the conversion sets. -/
structure BleHsAdvFields where
  flags : UInt8
  name : Option (List UInt8)
  nameLen : UInt8
  nameIsComplete : Bool
  txPwrLvl : Int8
  txPwrLvlIsPresent : Bool
  appearance : UInt16
  appearanceIsPresent : Bool
  svcDataUuid16 : Option (List UInt8)
  svcDataUuid16Len : UInt8
  mfgData : Option (List UInt8)
  mfgDataLen : UInt8

def BleHsAdvFields.zeroed : BleHsAdvFields :=
  ⟨0, none, 0, false, 0, false, 0, false, none, 0, none, 0⟩

/-- `len() as _` -/
def lenU8 (bytes : List UInt8) : UInt8 := .ofNat bytes.length

/-- `From<&BleAdvFields>` -/
def BleAdvFields.toRaw (fields : BleAdvFields) : BleHsAdvFields :=
  let raw := BleHsAdvFields.zeroed
  let raw := { raw with flags := fields.flags }
  let raw := match fields.name with
    | some name => { raw with
        name := some (asBytes name), nameLen := lenU8 (asBytes name), nameIsComplete := true }
    | none => raw
  let raw := match fields.txPowerLevel with
    | some txPowerLevel => { raw with txPwrLvl := txPowerLevel, txPwrLvlIsPresent := true }
    | none => raw
  let raw := match fields.appearance with
    | some appearance => { raw with appearance := appearance, appearanceIsPresent := true }
    | none => raw
  let raw := match fields.serviceDataUuid16 with
    | some serviceData => { raw with
        svcDataUuid16 := some serviceData, svcDataUuid16Len := lenU8 serviceData }
    | none => raw
  match fields.manufacturerData with
    | some manufacturerData => { raw with
        mfgData := some manufacturerData, mfgDataLen := lenU8 manufacturerData }
    | none => raw

/-- What `ble_gap_adv_set_fields` returns is up to C. -/
def advSetFields (bleGapAdvSetFields : BleHsAdvFields → ℤ) (fields : BleAdvFields) :
    Except BleError Unit :=
  BleError.check (bleGapAdvSetFields fields.toRaw)

/-- The pointer is that of the given byte string and its length is the true one; both are zero
when none is given. A given string that is empty is described by its pointer and the length 0,
since C encodes exactly as many bytes as the length says. -/
def Pairs (ptr : Option (List UInt8)) (len : UInt8) (given : Option (List UInt8)) : Prop :=
  ptr = given ∧ len.toNat = (given.getD []).length

/-- A value is marked as present and stored, or is not. -/
def Marks {α : Type*} (isPresent : Bool) (value : α) (given : Option α) : Prop :=
  isPresent = given.isSome ∧ ∀ a, given = some a → value = a

/-- The record says exactly what the fields say. -/
structure Describes (raw : BleHsAdvFields) (fields : BleAdvFields) : Prop where
  flags : raw.flags = fields.flags
  name : Pairs raw.name raw.nameLen (fields.name.map asBytes)
  complete : raw.nameIsComplete = fields.name.isSome
  txPowerLevel : Marks raw.txPwrLvlIsPresent raw.txPwrLvl fields.txPowerLevel
  appearance : Marks raw.appearanceIsPresent raw.appearance fields.appearance
  serviceData : Pairs raw.svcDataUuid16 raw.svcDataUuid16Len fields.serviceDataUuid16
  manufacturerData : Pairs raw.mfgData raw.mfgDataLen fields.manufacturerData

/-- The byte strings among the fields that are given. -/
def BleAdvFields.strings (fields : BleAdvFields) : List (List UInt8) :=
  (fields.name.map asBytes).toList ++ fields.serviceDataUuid16.toList ++
    fields.manufacturerData.toList

/-- The length that is stored, as much of it as 8 bits hold. -/
def lenOf (given : Option (List UInt8)) : UInt8 := lenU8 (given.getD [])

/-- Each field of the record comes from its own field, whichever others are given. -/
theorem toRaw_eq (fields : BleAdvFields) : fields.toRaw =
    { flags := fields.flags
      name := fields.name.map asBytes
      nameLen := lenOf (fields.name.map asBytes)
      nameIsComplete := fields.name.isSome
      txPwrLvl := fields.txPowerLevel.getD 0
      txPwrLvlIsPresent := fields.txPowerLevel.isSome
      appearance := fields.appearance.getD 0
      appearanceIsPresent := fields.appearance.isSome
      svcDataUuid16 := fields.serviceDataUuid16
      svcDataUuid16Len := lenOf fields.serviceDataUuid16
      mfgData := fields.manufacturerData
      mfgDataLen := lenOf fields.manufacturerData } := by
  obtain ⟨flags, name, txPowerLevel, appearance, serviceData, manufacturerData⟩ := fields
  cases name <;> cases txPowerLevel <;> cases appearance <;> cases serviceData <;>
    cases manufacturerData <;> rfl

theorem pairs_lenOf_iff (given : Option (List UInt8)) :
    Pairs given (lenOf given) given ↔ ∀ bytes ∈ given, bytes.length ≤ 255 := by
  cases given with
  | none => simp [Pairs, lenOf, lenU8]
  | some bytes =>
    simp only [Pairs, lenOf, lenU8, Option.getD_some, UInt8.toNat_ofNat', true_and,
      Option.mem_some_iff, forall_eq']
    rw [Nat.mod_eq_iff_lt (by norm_num)]
    omega

theorem marks_getD {α : Type*} (given : Option α) (a : α) :
    Marks given.isSome (given.getD a) given :=
  ⟨rfl, fun b hb => by simp [hb]⟩

theorem forall_strings {fields : BleAdvFields} {P : List UInt8 → Prop} :
    (∀ bytes ∈ fields.strings, P bytes) ↔
      (∀ bytes ∈ fields.name.map asBytes, P bytes) ∧
        (∀ bytes ∈ fields.serviceDataUuid16, P bytes) ∧
          ∀ bytes ∈ fields.manufacturerData, P bytes := by
  simp only [BleAdvFields.strings, List.mem_append, Option.mem_toList, or_imp, forall_and,
    and_assoc, Option.mem_def]

theorem describes_toRaw_iff (fields : BleAdvFields) :
    Describes fields.toRaw fields ↔ ∀ bytes ∈ fields.strings, bytes.length ≤ 255 := by
  rw [forall_strings, toRaw_eq]
  constructor
  · intro h
    exact ⟨(pairs_lenOf_iff _).mp h.name, (pairs_lenOf_iff _).mp h.serviceData,
      (pairs_lenOf_iff _).mp h.manufacturerData⟩
  · rintro ⟨hname, hservice, hmanufacturer⟩
    constructor
    case flags => rfl
    case name => exact (pairs_lenOf_iff _).mpr hname
    case complete => rfl
    case txPowerLevel => exact marks_getD _ _
    case appearance => exact marks_getD _ _
    case serviceData => exact (pairs_lenOf_iff _).mpr hservice
    case manufacturerData => exact (pairs_lenOf_iff _).mpr hmanufacturer

/-- Fields that are accepted are described exactly to C when none of their byte strings is longer
than 255 bytes, and otherwise only if C refuses the record. -/
theorem adv_set_fields_iff (bleGapAdvSetFields : BleHsAdvFields → ℤ) (fields : BleAdvFields) :
    (advSetFields bleGapAdvSetFields fields = .ok () → Describes fields.toRaw fields) ↔
      (∀ bytes ∈ fields.strings, bytes.length ≤ 255) ∨ bleGapAdvSetFields fields.toRaw ≠ 0 := by
  rw [describes_toRaw_iff]
  by_cases hrc : bleGapAdvSetFields fields.toRaw = 0
  · simp [advSetFields, BleError.check, hrc]
  · simp [advSetFields, BleError.check, hrc]

/-- Service data of 257 bytes is accepted as one byte. -/
theorem adv_set_fields_257 :
    let fields : BleAdvFields := ⟨6, none, none, none, some (List.replicate 257 1), none⟩
    let bleGapAdvSetFields : BleHsAdvFields → ℤ := fun raw =>
      if raw.svcDataUuid16Len.toNat + 2 ≤ 29 then 0 else 4
    advSetFields bleGapAdvSetFields fields = .ok () ∧ fields.toRaw.svcDataUuid16Len = 1 ∧
      ¬ Describes fields.toRaw fields := by
  intro fields bleGapAdvSetFields
  have hlen : fields.toRaw.svcDataUuid16Len = 1 := by
    simp [fields, toRaw_eq, lenOf, lenU8, -List.reduceReplicate]
  refine ⟨?_, hlen, ?_⟩
  · simp [advSetFields, bleGapAdvSetFields, hlen, BleError.check]
  · intro h
    have hpair := h.serviceData.2
    rw [hlen] at hpair
    simp [fields, -List.reduceReplicate] at hpair

end NimbleRs.Gap
