import Mathlib.Data.Finset.Basic
import Mathlib.Data.BitVec
import Mathlib.Tactic

/-!
# GATT service tables

`BleGattServices::new` with its two running indices, and the table that `gatt_services!`
expands to, both walked as the host does. A definition array is a list, a pointer into it
an index, and what is behind a pointer the rest of the array, so that a walk that runs past
the end of an array has no result. The bits of the flags are constants of the C headers
and a parameter, `repr`; fields of the definitions that stay zero in both tables and that
no walk looks at are left out.
-/
namespace NimbleRs.Gatt

inductive BleUuid
  | uuid16 (value : BitVec 16)
  | uuid128 (value : BitVec 128)
  deriving DecidableEq

inductive BleGattCharFlag
  | broadcast
  | read
  | writeNoRsp
  | write
  | notify
  | indicate
  | authSignWrite
  | reliableWrite
  | auxWrite
  | readEnc
  | readAuthen
  | readAuthor
  | writeEnc
  | writeAuthen
  | writeAuthor
  | notifyIndicateEnc
  | notifyIndicateAuthen
  | notifyIndicateAuthor
  deriving DecidableEq

/-- In the order in which an `EnumSet` is iterated. -/
def BleGattCharFlag.variants : List BleGattCharFlag :=
  [.broadcast, .read, .writeNoRsp, .write, .notify, .indicate, .authSignWrite, .reliableWrite,
    .auxWrite, .readEnc, .readAuthen, .readAuthor, .writeEnc, .writeAuthen, .writeAuthor,
    .notifyIndicateEnc, .notifyIndicateAuthen, .notifyIndicateAuthor]

theorem BleGattCharFlag.mem_variants (flag : BleGattCharFlag) : flag ∈ variants := by
  cases flag <;> simp [variants]

structure BleGattCharacteristic where
  uuid : BleUuid
  flags : Finset BleGattCharFlag

structure BleGattService where
  primary : Bool
  uuid : BleUuid
  characteristics : List BleGattCharacteristic

/-- `BLE_GATT_SVC_TYPE_*`; zero ends a table. -/
inductive SvcType
  | endOfTable
  | primary
  | secondary
  deriving DecidableEq

def SvcType.of (primary : Bool) : SvcType := if primary then .primary else .secondary

inductive AccessCb
  | gattsAccessCb
  deriving DecidableEq

/-- `ble_gatt_chr_def`, with pointers to UUIDs in `U`. -/
structure ChrDef (U : Type*) (w : ℕ) where
  uuid : Option U
  accessCb : Option AccessCb
  flags : BitVec w

/-- `ble_gatt_svc_def`, with pointers to characteristics in `C`. -/
structure SvcDef (U C : Type*) where
  type : SvcType
  uuid : Option U
  characteristics : Option C

def ChrDef.zero {U : Type*} {w : ℕ} : ChrDef U w := ⟨none, none, 0⟩
def SvcDef.zero {U C : Type*} : SvcDef U C := ⟨.endOfTable, none, none⟩

/-- What the host can reach; a dangling pointer has nothing behind it. -/
structure Tree (U C : Type*) (w : ℕ) where
  uuid : U → Option BleUuid
  chrs : C → Option (List (ChrDef U w))
  svcDefs : List (SvcDef U C)

structure ChrSeen (w : ℕ) where
  uuid : BleUuid
  flags : BitVec w
  accessCb : Option AccessCb
  deriving DecidableEq

structure SvcSeen (w : ℕ) where
  type : SvcType
  uuid : BleUuid
  characteristics : List (ChrSeen w)
  deriving DecidableEq

variable {U C : Type*} {w : ℕ}

/-- Characteristics until a null UUID. -/
def walkChrs (uuid : U → Option BleUuid) : List (ChrDef U w) → Option (List (ChrSeen w))
  | [] => none
  | d :: ds =>
    match d.uuid with
    | none => some []
    | some p =>
      (uuid p).bind fun u =>
        (walkChrs uuid ds).map fun rest => ⟨u, d.flags, d.accessCb⟩ :: rest

/-- Services until a null UUID, each with its characteristics. -/
def walkSvcs (uuid : U → Option BleUuid) (chrs : C → Option (List (ChrDef U w))) :
    List (SvcDef U C) → Option (List (SvcSeen w))
  | [] => none
  | d :: ds =>
    match d.uuid with
    | none => some []
    | some p =>
      (uuid p).bind fun u =>
        (match d.characteristics with
          | none => some []
          | some c => (chrs c).bind (walkChrs uuid)).bind fun cs =>
          (walkSvcs uuid chrs ds).map fun rest => ⟨d.type, u, cs⟩ :: rest

def Tree.walk (t : Tree U C w) : Option (List (SvcSeen w)) := walkSvcs t.uuid t.chrs t.svcDefs

def flagsToRepr (repr : BleGattCharFlag → BitVec w) (flags : Finset BleGattCharFlag) : BitVec w :=
  (BleGattCharFlag.variants.filter (· ∈ flags)).foldl (fun acc flag => acc ||| repr flag) 0

inductive BuildError
  | enomem
  | outOfRange
  deriving DecidableEq

/-- `CSlice::new_zeroed`; nothing is allocated for an empty slice. -/
def newZeroed {α : Type*} (calloc : Bool) (len : ℕ) (zero : α) : Except BuildError (List α) :=
  if len = 0 then .ok []
  else if calloc then .ok (List.replicate len zero)
  else .error .enomem

/-- `xs[i] = a` -/
def setAt {α : Type*} (xs : List α) (i : ℕ) (a : α) : Except BuildError (List α) :=
  if i < xs.length then .ok (xs.set i a) else .error .outOfRange

/-- `xs.as_ptr().add(i)` for a pointer that is to be read. -/
def ptrAdd {α : Type*} (xs : List α) (i : ℕ) : Except BuildError ℕ :=
  if i < xs.length then .ok i else .error .outOfRange

/-- A UUID inside one of the two allocations that hold UUIDs. -/
inductive UuidPtr
  | chars (i : ℕ)
  | svcUuids (i : ℕ)

/-- The four allocations and the two running indices. -/
structure Build (w : ℕ) where
  chars : List BleGattCharacteristic
  svcUuids : List BleUuid
  chrDefs : List (ChrDef UuidPtr w)
  svcDefs : List (SvcDef UuidPtr ℕ)
  charAt : ℕ
  defAt : ℕ

/-- The inner loop body of `BleGattServices::new`. -/
def addChr (repr : BleGattCharFlag → BitVec w) (b : Build w) (chr : BleGattCharacteristic) :
    Except BuildError (Build w) := do
  let chars ← setAt b.chars b.charAt chr
  let chrDefs ← setAt b.chrDefs b.defAt
    ⟨some (.chars b.charAt), some .gattsAccessCb, flagsToRepr repr chr.flags⟩
  return { b with
    chars := chars, chrDefs := chrDefs, charAt := b.charAt + 1, defAt := b.defAt + 1 }

/-- The outer loop body; the terminator is there from the allocation. -/
def addSvc (repr : BleGattCharFlag → BitVec w) (b : Build w) (svcAt : ℕ)
    (service : BleGattService) : Except BuildError (Build w) := do
  let svcUuids ← setAt b.svcUuids svcAt service.uuid
  let characteristics ← ptrAdd b.chrDefs b.defAt
  let svcDefs ← setAt b.svcDefs svcAt
    ⟨SvcType.of service.primary, some (.svcUuids svcAt), some characteristics⟩
  let b ← service.characteristics.foldlM (addChr repr)
    { b with svcUuids := svcUuids, svcDefs := svcDefs }
  return { b with defAt := b.defAt + 1 }

/-- `for (svc_at, service) in services.iter().enumerate()` -/
def addSvcs (repr : BleGattCharFlag → BitVec w) : Build w → ℕ → List BleGattService →
    Except BuildError (Build w)
  | b, _, [] => .ok b
  | b, svcAt, service :: services => do
    let b ← addSvc repr b svcAt service
    addSvcs repr b (svcAt + 1) services

def zeroCharacteristic : BleGattCharacteristic := ⟨.uuid16 0, ∅⟩

/-- `calloc k` says whether allocation number `k` succeeds. The sum of the characteristics is
that of the source as long as it fits into a `usize`, as it does for slices that memory holds. -/
def bleGattServicesNew (calloc : ℕ → Bool) (repr : BleGattCharFlag → BitVec w)
    (services : List BleGattService) : Except BuildError (Build w) := do
  let totalChars := (services.map (·.characteristics.length)).sum
  let chars ← newZeroed (calloc 0) totalChars zeroCharacteristic
  let svcUuids ← newZeroed (calloc 1) services.length (.uuid16 0)
  let chrDefs ← newZeroed (calloc 2) (totalChars + services.length) ChrDef.zero
  let svcDefs ← newZeroed (calloc 3) (services.length + 1) SvcDef.zero
  addSvcs repr ⟨chars, svcUuids, chrDefs, svcDefs, 0, 0⟩ 0 services

/-- `AsRef::as_ref` and what its pointers lead to. -/
def Build.tree (b : Build w) : Tree UuidPtr ℕ w where
  uuid
    | .chars i => b.chars[i]?.map (·.uuid)
    | .svcUuids i => b.svcUuids[i]?
  chrs d := if d < b.chrDefs.length then some (b.chrDefs.drop d) else none
  svcDefs := b.svcDefs

/-- `chr(uuid, flag | ...)` -/
structure MacroChr where
  uuid : BleUuid
  flags : List BleGattCharFlag

/-- `primary(uuid) { ... }` or `secondary(uuid) { ... }` -/
structure MacroSvc where
  primary : Bool
  uuid : BleUuid
  chrs : List MacroChr

def MacroChr.characteristic (c : MacroChr) : BleGattCharacteristic := ⟨c.uuid, c.flags.toFinset⟩

/-- The service that the macro invocation describes. -/
def MacroSvc.service (s : MacroSvc) : BleGattService :=
  ⟨s.primary, s.uuid, s.chrs.map MacroChr.characteristic⟩

/-- The `static U` of an expansion, by the position of the service and the characteristic. -/
inductive StaticUuid
  | svc (k : ℕ)
  | chr (k j : ℕ)

def chrSentinel {U : Type*} : ChrDef U w := ChrDef.zero
def svcSentinel {U C : Type*} : SvcDef U C := SvcDef.zero

def makeChr (uuid : U) (flags : BitVec w) : ChrDef U w := ⟨some uuid, some .gattsAccessCb, flags⟩

def makeSvc (primary : Bool) (uuid : U) (characteristics : C) : SvcDef U C :=
  ⟨SvcType.of primary, some uuid, some characteristics⟩

/-- `CHRS` of service `k`, from characteristic `j` on. -/
def staticChrs (repr : BleGattCharFlag → BitVec w) (k : ℕ) :
    ℕ → List MacroChr → List (ChrDef StaticUuid w)
  | _, [] => [chrSentinel]
  | j, c :: cs =>
    makeChr (.chr k j) (c.flags.foldl (fun acc flag => acc ||| repr flag) 0) ::
      staticChrs repr k (j + 1) cs

/-- The array of services, from service `k` on. -/
def staticSvcs : ℕ → List MacroSvc → List (SvcDef StaticUuid ℕ)
  | _, [] => [svcSentinel]
  | k, s :: ss => makeSvc s.primary (.svc k) k :: staticSvcs (k + 1) ss

/-- What `gatt_services!` expands to. -/
def staticTree (repr : BleGattCharFlag → BitVec w) (table : List MacroSvc) :
    Tree StaticUuid ℕ w where
  uuid
    | .svc k => table[k]?.map (·.uuid)
    | .chr k j => table[k]?.bind fun s => s.chrs[j]?.map (·.uuid)
  chrs k := table[k]?.map fun s => staticChrs repr k 0 s.chrs
  svcDefs := staticSvcs 0 table

/-- The characteristic as described: flag bits are those of some flag. -/
structure SeesChr (repr : BleGattCharFlag → BitVec w) (c : BleGattCharacteristic)
    (seen : ChrSeen w) : Prop where
  uuid : seen.uuid = c.uuid
  flags : ∀ i, seen.flags.getLsbD i = true ↔ ∃ flag ∈ c.flags, (repr flag).getLsbD i = true
  accessCb : seen.accessCb = some .gattsAccessCb

/-- The service as described, with exactly its characteristics in order. -/
structure SeesSvc (repr : BleGattCharFlag → BitVec w) (s : BleGattService)
    (seen : SvcSeen w) : Prop where
  type : seen.type = SvcType.of s.primary
  uuid : seen.uuid = s.uuid
  characteristics : List.Forall₂ (SeesChr repr) s.characteristics seen.characteristics

section Flags
variable {repr : BleGattCharFlag → BitVec w}

theorem getLsbD_foldl_or (flags : List BleGattCharFlag) (acc : BitVec w) (i : ℕ) :
    (flags.foldl (fun acc flag => acc ||| repr flag) acc).getLsbD i = true ↔
      acc.getLsbD i = true ∨ ∃ flag ∈ flags, (repr flag).getLsbD i = true := by
  induction flags generalizing acc with
  | nil => simp
  | cons flag flags ih =>
    rw [List.foldl_cons, ih, BitVec.getLsbD_or, Bool.or_eq_true, List.exists_mem_cons_iff, or_assoc]

/-- The union of the flag bits. -/
theorem getLsbD_flagsToRepr (flags : Finset BleGattCharFlag) (i : ℕ) :
    (flagsToRepr repr flags).getLsbD i = true ↔
      ∃ flag ∈ flags, (repr flag).getLsbD i = true := by
  unfold flagsToRepr
  rw [getLsbD_foldl_or]
  simp [BleGattCharFlag.mem_variants]

/-- The order in which a macro invocation lists the flags does not matter. -/
theorem foldl_or_eq_flagsToRepr (flags : List BleGattCharFlag) :
    flags.foldl (fun acc flag => acc ||| repr flag) 0 = flagsToRepr repr flags.toFinset := by
  apply BitVec.eq_of_getLsbD_eq
  intro i _
  rw [Bool.eq_iff_iff, getLsbD_foldl_or, getLsbD_flagsToRepr]
  simp

end Flags

section Walk
variable {uuid : U → Option BleUuid}

/-- The definition leads the host to the characteristic. -/
def ReadsChr (uuid : U → Option BleUuid) (d : ChrDef U w) (seen : ChrSeen w) : Prop :=
  d.uuid.bind uuid = some seen.uuid ∧ d.flags = seen.flags ∧ d.accessCb = seen.accessCb

/-- The definition leads the host to the service. -/
def ReadsSvc (uuid : U → Option BleUuid) (chrs : C → Option (List (ChrDef U w)))
    (d : SvcDef U C) (seen : SvcSeen w) : Prop :=
  d.type = seen.type ∧ d.uuid.bind uuid = some seen.uuid ∧
    ∃ c ds rest, d.characteristics = some c ∧ chrs c = some (ds ++ ChrDef.zero :: rest) ∧
      List.Forall₂ (ReadsChr uuid) ds seen.characteristics

/-- A walk stops at the first terminator. -/
theorem walkChrs_of_reads {ds : List (ChrDef U w)} {seen : List (ChrSeen w)}
    (h : List.Forall₂ (ReadsChr uuid) ds seen) (rest : List (ChrDef U w)) :
    walkChrs uuid (ds ++ ChrDef.zero :: rest) = some seen := by
  induction h with
  | nil => rfl
  | cons hd _ ih =>
    obtain ⟨huuid, hflags, hcb⟩ := hd
    obtain ⟨p, hp, hu⟩ := Option.bind_eq_some_iff.mp huuid
    simp [walkChrs, hp, hu, ih, hflags, hcb]

theorem walkSvcs_of_reads {chrs : C → Option (List (ChrDef U w))} {ds : List (SvcDef U C)}
    {seen : List (SvcSeen w)} (h : List.Forall₂ (ReadsSvc uuid chrs) ds seen) :
    walkSvcs uuid chrs (ds ++ [SvcDef.zero]) = some seen := by
  induction h with
  | nil => rfl
  | cons hd _ ih =>
    obtain ⟨htype, huuid, c, cs, rest, hc, hchrs, hreads⟩ := hd
    obtain ⟨p, hp, hu⟩ := Option.bind_eq_some_iff.mp huuid
    simp [walkSvcs, hp, hu, ih, hc, hchrs, walkChrs_of_reads hreads, htype]

end Walk

end NimbleRs.Gatt
